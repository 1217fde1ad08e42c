import Typewright.Proofs.Declaration.Expression
import Typewright.Proofs.Declaration.Pieces

/-!
# Operands of type expressions

The element of a list stands in front of its brackets, and the members of a combination between
operators, mostly without parentheses of their own. What such an operand shows outside of brackets is
a name, a string, a number or a bracket, and so nothing that binds weaker than what it is an operand
of. Only the text of a custom type, which is written as it is, may show an operator there
(`guards_expression`, `binds_of_writes`).
-/

namespace Typewright

open Reading
open Text (join)

namespace Kind

/-- Whether the text of a kind with one part shows the text of this part. -/
def lone : Kind → Bool
  | .array _ | .union _ | .enum _ | .intersection _ => true
  | _ => false

end Kind

namespace TypeGraph

/-- The text of a custom type stands outside of brackets in the text of a node: it is the text of the
node, or of the element or the only member that the node is made of. -/
inductive Exposes (g : TypeGraph) : NodeId → String → Prop where
  | custom {id : NodeId} {node : Node} {text : String} (built : g.get? id = some node)
      (unnamed : node.name = none) (kind : node.kind = .customType text) : Exposes g id text
  | lone {id c : NodeId} {node : Node} {text : String} (built : g.get? id = some node)
      (unnamed : node.name = none) (lone : node.kind.lone = true) (part : node.kind.rendered = [c])
      (exposes : Exposes g c text) : Exposes g id text

/-- An operand shows an operator, a separator or a blank outside of brackets only where the text of a
custom type does that stands in it. -/
structure Guards (g : TypeGraph) (id : NodeId) (operand : String) : Prop where
  balanced : Balanced operand.toList
  marks : ∀ c ∈ outer {} operand.toList, isJoint c = true →
    ∃ custom, g.Exposes id custom ∧ c ∈ outer {} custom.toList

/-- The texts that are written as they are. -/
structure Verbatim (g : TypeGraph) (P : List Char → Prop) : Prop where
  custom : ∀ id node text, g.get? id = some node → node.kind = .customType text → P text.toList
  reference : ∀ id node text, g.get? id = some node → node.kind = .reference text →
    Identifier.isBare text.toList = true

/-- A type expression of a node. -/
def Written (g : TypeGraph) (id : NodeId) (text : String) : Prop :=
  ∃ fresh path, Declaration.expression g fresh id path = .ok text

/-- A text for the structure of a node, in its declaration or in place of its name. -/
def Writes (g : TypeGraph) (id : NodeId) (node : Node) (text : String) : Prop :=
  g.get? id = some node ∧ ((∃ path, Declaration.structureText g id node path = .ok text) ∨
    node.name = none ∧ g.Written id text)

/-- Operands in parentheses, with an operator between them. -/
def Combines (g : TypeGraph) (operator : String) (cs : List NodeId) (text : String) : Prop :=
  ∃ operands, List.Forall₂ (fun c operand => g.Written c operand ∧ g.Guards c operand) cs operands ∧
    text = "(" ++ String.intercalate operator operands ++ ")"

end TypeGraph

/-- The operands in the text of a kind: an element in front of brackets, perhaps in parentheses, and
the members of a combination of two or more. -/
def Kind.Binds (g : TypeGraph) : Kind → String → Prop
  | .array element, text => ∃ part operand, g.Written element part ∧
    (operand = part ∨ operand = "(" ++ part ++ ")") ∧ g.Guards element operand ∧
    text = operand ++ "[]"
  | .union cs, text => 2 ≤ cs.length → g.Combines " | " cs text
  | .enum members, text => 2 ≤ members.length → g.Combines " | " (members.map (·.node)) text
  | .intersection cs, text => 2 ≤ cs.length → g.Combines " & " cs text
  | _, _ => True

namespace Declaration

variable {g : TypeGraph} {kind : Kind} {parts : List String}

/-! ## Combinations -/

theorem toList_combination (operator empty : String) (hlen : 2 ≤ parts.length) :
    (combination operator empty parts).toList =
      '(' :: join operator.toList (parts.map String.toList) ++ [')'] := by
  cases parts with
  | nil => simp at hlen
  | cons a rest =>
      cases rest with
      | nil => simp at hlen
      | cons b rest =>
          rw [combination, String.toList_append, String.toList_append, Text.toList_intercalate]
          · rfl
          · simp
          · simp

theorem toList_tuple (cs : List NodeId) (parts : List String) :
    (kindText g (.tuple cs) parts).toList =
      '[' :: join ", ".toList (parts.map String.toList) ++ [']'] := by
  rw [kindText, String.toList_append, String.toList_append, Text.toList_intercalate]
  rfl

/-! ## Interfaces -/

/-- The comment in front of a member. -/
def memberComment (g : TypeGraph) (m : InterfaceMember) : Option String :=
  (g.get? m.node).bind fun node => if node.name = none then node.comment else none

/-- The lines of a member. -/
def memberLines (g : TypeGraph) (m : InterfaceMember) (type : String) : List Line :=
  (memberComment g m).toList.map (fun comment => .comment (commentBlock comment).toList) ++
    [.member (keyText m.key ++ (if m.required then "" else "?")).toList type.toList]

theorem toList_memberText (m : InterfaceMember) (type : String) :
    (memberText g m type).toList = join ['\n'] ((memberLines g m type).map Line.text) := by
  have hmember : (keyText m.key ++ (if m.required then "" else "?") ++ ": " ++ type).toList =
      (Line.member (keyText m.key ++ (if m.required then "" else "?")).toList type.toList).text := by
    simp [Line.text, join]
  obtain ⟨comment, htext, hcomment⟩ : ∃ comment : String, memberText g m type =
      comment ++ (keyText m.key ++ (if m.required then "" else "?") ++ ": " ++ type) ∧
      comment.toList = ((memberComment g m).toList.map fun comment =>
        (commentBlock comment).toList ++ ['\n']).flatten := by
    refine ⟨_, by rw [memberText]; simp only [String.append_assoc]; rfl, ?_⟩
    unfold memberComment
    cases g.get? m.node with
    | none => rfl
    | some node =>
        cases hname : node.name with
        | some name => simp [hname]
        | none => cases hcomment : node.comment <;> simp [hname, hcomment]
  rw [htext, String.toList_append, hcomment, hmember, memberLines]
  cases memberComment g m with
  | none => rfl
  | some comment => simp [join, Line.text]

/-- The lines between the braces of an interface. -/
def interfaceLines (g : TypeGraph) (members : List InterfaceMember) (parts : List String) :
    List Line :=
  ((members.filter fun m => !m.pattern && !m.unreachable).zipWith (memberLines g) parts).flatten

theorem memberLines_ne_nil (m : InterfaceMember) (type : String) : memberLines g m type ≠ [] :=
  List.append_ne_nil_of_right_ne_nil _ (List.cons_ne_nil _ _)

/-- An interface is a pair of braces if it has no members. -/
theorem toList_interface (members : List InterfaceMember) (supers : List NodeId)
    (hlen : parts.length = (Kind.interface members supers).rendered.length) :
    (interfaceLines g members parts = [] ∧ (kindText g (.interface members supers) parts).toList =
      '{' :: [] ++ ['}']) ∨
    (kindText g (.interface members supers) parts).toList =
      '{' :: join ['\n'] ([] :: (interfaceLines g members parts).map Line.text ++ [[]]) ++ ['}'] := by
  have hlen : parts.length = (members.filter fun m => !m.pattern && !m.unreachable).length := by
    rw [hlen, Kind.rendered, List.length_map]
  have htext : kindText g (.interface members supers) parts =
      if (members.filter fun m => !m.pattern && !m.unreachable).isEmpty then "\x7b\x7d"
      else "\x7b\n" ++ String.intercalate "\n" ((members.filter fun m =>
        !m.pattern && !m.unreachable).zipWith (memberText g) parts) ++ "\n\x7d" := rfl
  rw [htext, interfaceLines]
  generalize members.filter (fun m => !m.pattern && !m.unreachable) = written at hlen
  rcases written with _ | ⟨m, rest⟩
  · exact .inl ⟨rfl, by rw [if_pos List.isEmpty_nil]; rfl⟩
  · obtain ⟨part, more, rfl⟩ : ∃ part more, parts = part :: more :=
      List.exists_cons_of_length_eq_add_one hlen
    generalize hgroups : (m :: rest).zipWith (memberLines g) (part :: more) = groups
    have hne : ∀ ls ∈ groups.map (List.map Line.text), ls ≠ [] := by
      intro ls hls
      obtain ⟨group, hgroup, rfl⟩ := List.mem_map.1 hls
      obtain ⟨i, hi, rfl⟩ := List.mem_iff_getElem.1 (hgroups ▸ hgroup)
      rw [List.getElem_zipWith]
      exact fun hnil => memberLines_ne_nil _ _ (List.map_eq_nil_iff.1 hnil)
    have hflat : join ['\n'] (groups.flatten.map Line.text) =
        join ['\n'] (((m :: rest).zipWith (memberText g) (part :: more)).map String.toList) := by
      rw [List.map_flatten, Text.join_flatten _ hne, ← hgroups]
      simp only [List.map_zipWith, toList_memberText]
    have hfull : groups.flatten.map Line.text ≠ [] := by
      rw [← hgroups, List.zipWith_cons_cons, List.flatten_cons, List.map_append]
      exact List.append_ne_nil_of_left_ne_nil
        (fun hnil => memberLines_ne_nil _ _ (List.map_eq_nil_iff.1 hnil)) _
    refine .inr ?_
    rw [Text.join_framed _ hfull, hflat, ← show "\n".toList = ['\n'] from rfl,
      ← Text.toList_intercalate]
    simp

/-- The lines of an interface are those of its members. -/
theorem exists_mem_memberLines {members : List InterfaceMember} {line : Line}
    (h : line ∈ interfaceLines g members parts) :
    ∃ m, ∃ part ∈ parts, line ∈ memberLines g m part := by
  obtain ⟨ls, hls, hline⟩ := List.mem_flatten.1 h
  obtain ⟨i, hi, rfl⟩ := List.mem_iff_getElem.1 hls
  rw [List.getElem_zipWith] at hline
  exact ⟨_, _, List.getElem_mem _, hline⟩

theorem shows_interface (members : List InterfaceMember) (supers : List NodeId)
    (hlen : parts.length = (Kind.interface members supers).rendered.length)
    (hparts : ∀ part ∈ parts, Balanced part.toList) :
    Shows (kindText g (.interface members supers) parts).toList ['{'] := by
  rcases toList_interface (g := g) members supers hlen with ⟨-, htext⟩ | htext
  · have hempty : Balanced [] := rfl
    exact htext ▸ hempty.enclosed rfl
  · rw [htext]
    have hlines : ∀ line ∈ interfaceLines g members parts, Balanced line.text := by
      intro line hline
      obtain ⟨m, part, hpart, hline⟩ := exists_mem_memberLines hline
      rcases List.mem_append.1 hline with hline | hline
      · obtain ⟨comment, -, rfl⟩ := List.mem_map.1 hline
        exact (item_commentBlock comment).balanced
      · obtain rfl := List.mem_singleton.1 hline
        have hcolon : Balanced ": ".toList := by decide
        exact ((item_keyText m.key m.required).balanced.append hcolon).append (hparts part hpart)
    have hall : ∀ part ∈ [] :: (interfaceLines g members parts).map Line.text ++ [[]],
        Balanced part := by
      intro part hpart
      simp only [List.cons_append, List.mem_cons, List.mem_append, List.mem_map, List.not_mem_nil,
        or_false] at hpart
      rcases hpart with rfl | ⟨line, hline, rfl⟩ | rfl
      · rfl
      · exact hlines line hline
      · rfl
    obtain ⟨o, hshows, -⟩ := shows_join ['\n'] (by decide) hall
    exact hshows.balanced.enclosed rfl

/-! ## All kinds -/

/-- The operators, separators and blanks that a text made of parts shows come from the text of a
custom type or from the only part. -/
structure Confines (kind : Kind) (parts : List String) (text : String) : Prop where
  balanced : Balanced text.toList
  marks : ∀ c ∈ outer {} text.toList, isJoint c = true →
    (∃ custom, kind = .customType custom ∧ c ∈ outer {} custom.toList) ∨
      kind.lone = true ∧ ∃ part, parts = [part] ∧ c ∈ outer {} part.toList

theorem Confines.of_shows {text : String} {o : List Char} (h : Shows text.toList o)
    (ho : ∀ c ∈ o, isJoint c = false) : Confines kind parts text where
  balanced := h.balanced
  marks c hc hmark := by
    rw [ho c (h.outer ▸ hc)] at hmark
    cases hmark

theorem Confines.of_operand {text : String} (h : Operand text.toList) : Confines kind parts text :=
  .of_shows h.balanced.shows h.free

theorem confines_combination {operator empty : String} (hlone : kind.lone = true)
    (hoperator : Balanced operator.toList) (hempty : Operand empty.toList)
    (hparts : ∀ part ∈ parts, Balanced part.toList) :
    Confines kind parts (combination operator empty parts) := by
  rcases parts with _ | ⟨part, _ | ⟨next, rest⟩⟩
  · exact .of_operand hempty
  · exact ⟨hparts part List.mem_cons_self, fun c hc _ => .inr ⟨hlone, part, rfl, hc⟩⟩
  · refine .of_shows ?_ (show ∀ c ∈ ['('], isJoint c = false by decide)
    obtain ⟨o, hshows, -⟩ := shows_join operator.toList hoperator fun part hpart => by
      obtain ⟨part, hmem, rfl⟩ := List.mem_map.1 hpart
      exact hparts part hmem
    rw [toList_combination _ _ (by simp)]
    exact hshows.balanced.enclosed rfl

/-- The text of a list: its element, in parentheses if it ends with a quote, and brackets. -/
theorem kindText_array (element : NodeId) (part : String) :
    kindText g (.array element) [part] =
      (if part.toList.getLast? == some '"' then "(" ++ part ++ ")" else part) ++ "[]" := by
  have hjoin : String.join [part] = part := by simp
  rw [kindText, hjoin]
  split
  · simp only [String.append_assoc, String.reduceAppend]
  · rfl

theorem shows_brackets : Shows "[]".toList ['['] :=
  Balanced.enclosed (show Balanced [] from rfl) rfl

theorem shows_parentheses {part : String} (h : Balanced part.toList) :
    Shows ("(" ++ part ++ ")").toList ['('] := by
  rw [String.toList_append, String.toList_append]
  exact h.enclosed rfl

/-- A text made of parts shows an operator, a separator or a blank outside of brackets only where a
custom type or its only part does. -/
theorem confines_kindText (hlen : parts.length = kind.rendered.length)
    (hcustom : ∀ text, kind = .customType text → Balanced text.toList)
    (hreference : ∀ text, kind = .reference text → Identifier.isBare text.toList = true)
    (hparts : ∀ part ∈ parts, Balanced part.toList) :
    Confines kind parts (kindText g kind parts) := by
  have hnever : Operand "never".toList := (operand_keyword (by decide)).1
  have hunknown : Operand "unknown".toList := (operand_keyword (by decide)).1
  cases kind with
  | any => exact .of_operand (operand_keyword (show "any" ∈ keywords by decide)).1
  | boolean => exact .of_operand (operand_keyword (show "boolean" ∈ keywords by decide)).1
  | null => exact .of_operand (operand_keyword (show "null" ∈ keywords by decide)).1
  | number => exact .of_operand (operand_keyword (show "number" ∈ keywords by decide)).1
  | object => exact .of_operand (operand_keyword (show "object" ∈ keywords by decide)).1
  | string => exact .of_operand (operand_keyword (show "string" ∈ keywords by decide)).1
  | customType text => exact ⟨hcustom text rfl, fun c hc _ => .inl ⟨text, rfl, hc⟩⟩
  | reference text => exact .of_operand (operand_bare (hreference text rfl)).1
  | literal value => exact .of_operand (operand_text value)
  | union cs => exact confines_combination rfl (by decide) hnever hparts
  | enum members => exact confines_combination rfl (by decide) hnever hparts
  | intersection cs => exact confines_combination rfl (by decide) hunknown hparts
  | interface members supers =>
      exact .of_shows (shows_interface members supers hlen hparts) (by decide)
  | tuple cs =>
      have hall : ∀ part ∈ parts.map String.toList, Balanced part := by
        intro part hpart
        obtain ⟨part, hmem, rfl⟩ := List.mem_map.1 hpart
        exact hparts part hmem
      obtain ⟨o, hshows, -⟩ := shows_join ", ".toList (by decide) hall
      exact .of_shows (toList_tuple cs parts ▸ hshows.balanced.enclosed rfl) (by decide)
  | array element =>
      obtain ⟨part, rfl⟩ := List.length_eq_one_iff.1 hlen
      have hpart := hparts part List.mem_cons_self
      rw [kindText_array]
      split
      · have hshows := (shows_parentheses hpart).append shows_brackets
        rw [← String.toList_append] at hshows
        exact .of_shows hshows (by decide)
      · have hshows : Shows (part ++ "[]").toList (outer {} part.toList ++ ['[']) := by
          rw [String.toList_append]
          exact hpart.shows.append shows_brackets
        refine ⟨hshows.balanced, fun c hc hmark => .inr ⟨rfl, part, rfl, ?_⟩⟩
        rw [hshows.outer] at hc
        refine (List.mem_append.1 hc).resolve_right fun hc => ?_
        rw [List.mem_singleton.1 hc] at hmark
        cases hmark

/-! ## Type expressions -/

theorem isPart_sanitize (raw : String) :
    ∀ c ∈ (Identifier.sanitize raw).toList, Identifier.isPart c = true := by
  intro c hc
  rw [Identifier.sanitize, String.toList_ofList] at hc
  have hclean := Identifier.clean_sanitizeChars (List.ne_nil_of_mem hc)
  exact Identifier.isPart_of_isBare hclean.bare c hc

/-- The text of an unnamed node guards its operators if those of its parts do. -/
theorem guards_kindText (hv : g.Verbatim Balanced) {id : NodeId} {node : Node}
    (hn : g.get? id = some node) (hname : node.name = none)
    (hparts : List.Forall₂ g.Guards node.kind.rendered parts) :
    g.Guards id (kindText g node.kind parts) := by
  have hbalanced : ∀ part ∈ parts, Balanced part.toList := fun part hpart => by
    obtain ⟨c, -, hguards⟩ := exists_of_forall₂_left hparts.flip hpart
    exact hguards.balanced
  have hconfines := confines_kindText (g := g) hparts.length_eq.symm
    (fun text => hv.custom id node text hn) (fun text => hv.reference id node text hn) hbalanced
  refine ⟨hconfines.balanced, fun c hc hmark => ?_⟩
  rcases hconfines.marks c hc hmark with ⟨custom, hkind, hshown⟩ | ⟨hlone, part, rfl, hshown⟩
  · exact ⟨custom, .custom hn hname hkind, hshown⟩
  · obtain ⟨child, rest, hguards, hrest, hrendered⟩ := List.forall₂_cons_right_iff.1 hparts
    obtain rfl := List.forall₂_nil_right_iff.1 hrest
    obtain ⟨custom, hexposes, hshown⟩ := hguards.marks c hshown hmark
    exact ⟨custom, .lone hn hname hlone hrendered hexposes, hshown⟩

/-- A type expression shows an operator, a separator or a blank outside of brackets only where the
text of a custom type does that stands in it. -/
theorem guards_expression (hv : g.Verbatim Balanced) {id : NodeId} {text : String}
    (h : g.Written id text) : g.Guards id text := by
  obtain ⟨fresh, path, h⟩ := h
  refine expression_induction (fun {id node name} _ _ => ?_) (guards_kindText hv) h
  have hparts := isPart_sanitize name
  have hshows := shows_plain fun c hc => (plain_of_isPart (hparts c hc)).1
  refine ⟨hshows.balanced, fun c hc hmark => ?_⟩
  rw [hshows.outer] at hc
  rw [(plain_of_isPart (hparts c hc)).2] at hmark
  cases hmark

/-- What is written for a kind is made of the expressions of its parts. -/
theorem exists_parts_of_writes {id : NodeId} {node : Node} {text : String}
    (h : g.Writes id node text) :
    ∃ parts, List.Forall₂ g.Written node.kind.rendered parts ∧ text = kindText g node.kind parts := by
  have hall : ∀ {fresh : List NodeId} {path : String} {parts : List String},
      ((shown node.kind).mapM fun p => expression g fresh p.2 (Pointer.build path [p.1])) =
        .ok parts → List.Forall₂ g.Written node.kind.rendered parts := by
    intro fresh path parts hparts
    rw [← map_shown, List.forall₂_map_left_iff]
    exact (forall₂_of_mapM hparts).imp fun _ _ hpart => ⟨_, _, hpart⟩
  obtain ⟨hn, ⟨path, h⟩ | ⟨hname, fresh, path, h⟩⟩ := h
  · obtain ⟨parts, hparts, h⟩ := Loading.ok_of_bind h
    exact ⟨parts, hall hparts, (Except.ok.inj h).symm⟩
  · have hout := outcome_expression g fresh id path
    rw [h] at hout
    cases hout with
    | named hn' hname' =>
        obtain rfl := Option.some.inj (hn.symm.trans hn')
        rw [hname] at hname'
        cases hname'
    | unnamed hn' _ _ hparts =>
        obtain rfl := Option.some.inj (hn.symm.trans hn')
        exact ⟨_, hall hparts, rfl⟩

theorem combines_of_parts (hv : g.Verbatim Balanced) {operator empty : String} {cs : List NodeId}
    (hparts : List.Forall₂ g.Written cs parts) (hlen : 2 ≤ cs.length) :
    g.Combines operator cs (combination operator empty parts) := by
  refine ⟨parts, hparts.imp fun _ _ h => ⟨h, guards_expression hv h⟩, ?_⟩
  match parts, hparts.length_eq ▸ hlen with
  | _ :: _ :: _, _ => rfl

/-- In what is written for a kind, an operand shows an operator, a separator or a blank outside of
brackets only where the text of a custom type does that stands in it. -/
theorem binds_of_writes (hv : g.Verbatim Balanced) {id : NodeId} {node : Node} {text : String}
    (h : g.Writes id node text) : node.kind.Binds g text := by
  obtain ⟨parts, hparts, rfl⟩ := exists_parts_of_writes h
  generalize node.kind = kind at hparts ⊢
  cases kind with
  | array element =>
      obtain ⟨part, rfl⟩ := List.length_eq_one_iff.1 hparts.length_eq.symm
      obtain ⟨hpart, -⟩ := List.forall₂_cons.1 hparts
      have hguards := guards_expression hv hpart
      rw [kindText_array]
      split
      · refine ⟨part, _, hpart, .inr rfl, ?_, rfl⟩
        have hshows := shows_parentheses hguards.balanced
        refine ⟨hshows.balanced, fun c hc hmark => ?_⟩
        rw [hshows.outer, List.mem_singleton] at hc
        rw [hc] at hmark
        cases hmark
      · exact ⟨part, _, hpart, .inl rfl, hguards, rfl⟩
  | union cs => exact combines_of_parts hv hparts
  | enum members =>
      exact fun hlen => combines_of_parts hv hparts (by rwa [List.length_map])
  | intersection cs => exact combines_of_parts hv hparts
  | _ => trivial

end Declaration

end Typewright
