import Typewright.Proofs.Declaration.Expression
import Typewright.Proofs.Declaration.Plan
import Typewright.Proofs.TypeGraph.WellFormed

/-!
# Well-formed graphs have texts

The text of a type contains those of the unnamed nodes inside it. None of them contains itself, so
the nodes that are being expanded never come up again, and every type expression, every declaration
and the whole output of a well-formed graph exist (`exists_text`).
-/

namespace Typewright.Declaration

variable {g : TypeGraph}

/-! ## Expressions -/

theorem inlines_of_expands {a b : NodeId} (h : g.Expands a b) : g.Inlines a b := by
  obtain ⟨node, hn, hname, hb⟩ := h
  exact ⟨node, hn, hname, node.kind.rendered_subset hb⟩

/-- The parts of a named node have texts. -/
theorem exists_part (h : g.WellFormed) {id c : NodeId} {node : Node} (hn : g.get? id = some node)
    (hname : node.name.isSome) (hc : c ∈ node.kind.children) (path : String) :
    ∃ text, expression g (unexpanded g [id]) c path = .ok text := by
  have hinside : ∀ j, Relation.ReflTransGen g.Expands c j → j < g.size := by
    intro j hj
    induction hj with
    | refl => exact h.children id node hn c hc
    | tail _ hab _ =>
        obtain ⟨node, hn, -, hb⟩ := inlines_of_expands hab
        exact h.children _ node hn _ hb
  refine exists_expression (fun j hj => ⟨h.built j (hinside j hj), fun hcycle => ?_⟩)
    fun j nodej _ hnj hnamej => ?_
  · exact h.cycles j (Relation.TransGen.mono (fun _ _ => inlines_of_expands) _ _ hcycle)
  · have hne : j ≠ id := by
      rintro rfl
      obtain rfl := Option.some.inj (hn.symm.trans hnj)
      rw [hnamej] at hname
      cases hname
    exact mem_unexpanded.2 ⟨g.lt_size_of_get? hnj, fun hmem => hne (List.mem_singleton.1 hmem)⟩

/-! ## Declarations -/

theorem exists_structureText (h : g.WellFormed) {id : NodeId} {node : Node}
    (hn : g.get? id = some node) (hname : node.name.isSome) (path : String) :
    ∃ text, structureText g id node path = .ok text := by
  obtain ⟨parts, hparts⟩ : ∃ parts, (shown node.kind).mapM (fun p =>
      expression g (unexpanded g [id]) p.2 (Pointer.build path [p.1])) = .ok parts :=
    exists_mapM_ok fun p hp => exists_part h hn hname (mem_children_of_mem_shown hp) _
  exact ⟨_, by rw [structureText]; simp only [hparts]; rfl⟩

theorem exists_aliasText (h : g.WellFormed) (options : Options) {id : NodeId} {node : Node}
    (hn : g.get? id = some node) (hname : node.name.isSome) (path : String) :
    ∃ body, aliasText g id node path = .ok (Pass.aliases.heading options node ++ body) := by
  obtain ⟨body, hbody⟩ := exists_structureText h hn hname path
  refine ⟨"= " ++ body, ?_⟩
  rw [aliasText, hbody]
  simp only [Pass.heading, Pass.keyword, String.append_assoc, pure, Except.pure, bind, Except.bind]
  rfl

/-- A named node is a super type by its name. -/
theorem superName_of_named {id : NodeId} {node : Node} {name : String}
    (hn : g.get? id = some node) (hname : node.name = some name) (path : String) (index : Nat) :
    superName g path id index = .ok (Identifier.sanitize name) := by
  rw [superName]
  simp only [nodeAt_eq hn, bind, Except.bind, hname]
  rfl

theorem exists_interfaceText (h : g.WellFormed) (options : Options) {id : NodeId} {node : Node}
    {members : List InterfaceMember} {supers : List NodeId} (hn : g.get? id = some node)
    (hname : node.name.isSome) (hkind : node.kind = .interface members supers) (path : String) :
    ∃ body, interfaceText g id node supers path =
      .ok (Pass.interfaces.heading options node ++ body) := by
  obtain ⟨names, hnames⟩ : ∃ names, supers.zipIdx.mapM (fun p =>
      superName g path p.1 p.2) = .ok names := by
    refine exists_mapM_ok fun p hp => ?_
    obtain ⟨n, _, _, hsuper, hsome, -⟩ :=
      h.supers id node members supers hn hkind p.1 (List.fst_mem_of_mem_zipIdx hp)
    obtain ⟨name, hsome⟩ := Option.isSome_iff_exists.1 hsome
    exact ⟨_, superName_of_named hsuper hsome path p.2⟩
  obtain ⟨body, hbody⟩ := exists_structureText h hn hname path
  refine ⟨(if names.isEmpty then "" else "extends " ++ String.intercalate ", " names ++ " ") ++ body,
    ?_⟩
  rw [interfaceText]
  simp only [hnames, hbody, bind, Except.bind]
  simp [Pass.heading, Pass.keyword, String.append_assoc, pure, Except.pure]

theorem exists_enumText (h : g.WellFormed) (options : Options) {id : NodeId} {node : Node}
    {members : List EnumMember} (hn : g.get? id = some node) (hname : node.name.isSome)
    (hkind : node.kind = .enum members) (path : String) :
    ∃ body, enumText g options id node members path =
      .ok (Pass.enums.heading options node ++ body) := by
  obtain ⟨lines, hlines⟩ : ∃ lines, members.mapM (fun m => do
      let value ← expression g (unexpanded g [id]) m.node (Pointer.build path [m.key])
      return keyText m.key ++ " = " ++ value) = .ok lines := by
    refine exists_mapM_ok fun m hm => ?_
    have hc : m.node ∈ node.kind.children := by
      rw [hkind]
      exact List.mem_map_of_mem hm
    obtain ⟨value, hvalue⟩ := exists_part h hn hname hc (Pointer.build path [m.key])
    exact ⟨_, by rw [hvalue]; rfl⟩
  refine ⟨"\x7b\n" ++ String.intercalate ",\n" lines ++ "\n\x7d", ?_⟩
  rw [enumText, hlines]
  by_cases hconst : options.enableConstEnums = true <;>
    simp only [Pass.heading, Pass.keyword, hconst, String.append_assoc, pure, Except.pure, bind,
      Except.bind] <;>
    rfl

/-! ## The whole output -/

/-- The text of a section is made of the declarations of its pass. -/
def Section (pass : Pass) (options : Options) (g : TypeGraph) (out : Except CompileError String) :
    Prop :=
  ∃ texts, List.Forall₂ (fun d text => ∃ body, text = pass.heading options d.2.1 ++ body)
    (pass.declared g options) texts ∧ out = .ok (String.intercalate "\n" texts)

/-- The walk of a pass writes its section if it can write each named node of the pass. -/
theorem section_collect (h : g.WellFormed) (pass : Pass) (options : Options)
    {text : NodeId → Node → String → Except CompileError String}
    (htext : ∀ id node path, g.get? id = some node → node.kind.pass = pass → node.name.isSome →
      ∃ body, text id node path = .ok (pass.heading options node ++ body)) :
    Section pass options g (collect g (pass.plan g options) text) := by
  have hlive : ∀ id, id < g.size → ∃ node, g.get? id = some node ∧
      ∀ path, Enters (· < g.size) (pass.plan g options id node path) := by
    intro id hid
    obtain ⟨node, hn⟩ := h.built id hid
    exact ⟨node, hn, fun path i p hp => h.children id node hn i
      (node.kind.expanded_subset (pass.entered_plan_subset (mem_entered hp)))⟩
  have hdeclared : ∀ d ∈ pass.declared g options, ∃ out, text d.1 d.2.1 d.2.2 = .ok out ∧
      ∃ body, out = pass.heading options d.2.1 ++ body := by
    refine of_mem_declared (P := fun i n p => ∃ out, text i n p = .ok out ∧
      ∃ body, out = pass.heading options n ++ body) (fun id node path hn i n p hp => ?_) ?_
    · obtain ⟨heq, hpass, hname⟩ := Pass.of_mem_pending_plan (mem_pending hp)
      obtain ⟨rfl, rfl⟩ := Prod.mk.inj heq
      obtain ⟨body, hbody⟩ := htext i n p hn hpass hname
      exact ⟨_, hbody, body, rfl⟩
    · intro i n p hmem
      simp at hmem
  obtain ⟨texts, htexts, hforall⟩ := exists_mapM hdeclared
  have hstart : Enters (· < g.size) [.enter g.root "#"] := by
    intro i p hp
    simp only [List.mem_singleton, Task.enter.injEq] at hp
    exact hp.1 ▸ h.root
  refine ⟨texts, hforall, ?_⟩
  rw [collect, walk_eq hlive text hstart]
  exact congrArg (· >>= _) htexts

theorem section_aliases (h : g.WellFormed) (options : Options) :
    Section .aliases options g (aliases options g) :=
  section_collect h .aliases options fun _ _ path hn _ hname =>
    exists_aliasText h options hn hname path

theorem section_interfaces (h : g.WellFormed) (options : Options) :
    Section .interfaces options g (interfaces options g) := by
  refine section_collect h .interfaces options fun id node path hn hpass hname => ?_
  cases hkind : node.kind with
  | interface members supers => exact exists_interfaceText h options hn hname hkind path
  | _ => simp [hkind, Kind.pass] at hpass

theorem section_enums (h : g.WellFormed) (options : Options) :
    Section .enums options g (enums options g) := by
  refine section_collect h .enums options fun id node path hn hpass hname => ?_
  cases hkind : node.kind with
  | enum members => exact exists_enumText h options hn hname hkind path
  | _ => simp [hkind, Kind.pass] at hpass

/-- The declarations of a well-formed graph have a text, whatever the options. -/
theorem exists_text (h : g.WellFormed) (options : Options) : ∃ out, text options g = .ok out := by
  obtain ⟨_, -, ha⟩ := section_aliases h options
  obtain ⟨_, -, hi⟩ := section_interfaces h options
  obtain ⟨_, -, he⟩ := section_enums h options
  exact ⟨_, by rw [text, ha, hi, he]; rfl⟩

end Typewright.Declaration
