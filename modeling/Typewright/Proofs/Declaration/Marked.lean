import Typewright.Proofs.Declaration.Text
import Typewright.Proofs.Graph.Load
import Typewright.Proofs.Text.Marked

/-!
# Declarations with marked lines

Each text of a type, a member or a declaration is written once more with marks at its line feeds: a
line completes a member of an interface at any depth, a member of an enum, or a declaration. Without
the marks it is the same text (`written_expression`, `written_declaration`).
-/

namespace Typewright

namespace Marked

/-- The text of a marked text. -/
def written (m : Marked) : String := String.ofList m.text

@[simp] theorem written_nil : written [] = "" := rfl

@[simp] theorem written_append (m m' : Marked) : written (m ++ m') = written m ++ written m' := by
  simp [written]

@[simp] theorem written_plain (s : String) : written (plain s) = s := by
  simp [written]

@[simp] theorem written_newline (e : Option Ending) : written (newline e) = "\n" := rfl

@[simp] theorem written_intercalate (separator : Marked) (ms : List Marked) :
    written (separator.intercalate ms) =
      String.intercalate separator.written (ms.map written) := by
  induction ms with
  | nil => rfl
  | cons m rest ih =>
      cases rest with
      | nil => simp
      | cons n more =>
          rw [List.intercalate_cons_cons, written_append, written_append, ih]
          simp [String.append_assoc]

theorem written_flatten (ms : List Marked) : written ms.flatten = String.join (ms.map written) := by
  induction ms with
  | nil => rfl
  | cons m rest ih => simp [ih]

end Marked

namespace Declaration

open Marked (plain newline written)

variable {g : TypeGraph} {options : Options}

/-! ## Marked texts -/

/-- A description as a block comment on lines of its own. -/
def commentMarked (comment : String) : Marked :=
  (commentLines comment.toList).flatMap fun line => plain (String.ofList line) ++ newline none

/-- The description in front of a declaration. -/
def leadingMarked (node : Node) : Marked :=
  match node.comment with
  | some comment => commentMarked comment
  | none => []

/-- A member of an interface with the marked text of its type. -/
def memberMarked (g : TypeGraph) (m : InterfaceMember) (type : Marked) : Marked :=
  let comment :=
    match g.get? m.node with
    | some node =>
      match node.comment, node.name with
      | some comment, none => commentMarked comment
      | _, _ => []
    | none => []
  comment ++ plain (keyText m.key ++ (if m.required then "" else "?") ++ ": ") ++ type

def combinationMarked (operator empty : String) : List Marked → Marked
  | [] => plain empty
  | [m] => m
  | ms => plain "(" ++ (plain operator).intercalate ms ++ plain ")"

/-- The marked text of a kind from those of the children that it shows. -/
def kindMarked (g : TypeGraph) (kind : Kind) (parts : List Marked) : Marked :=
  match kind with
  | .array _ =>
    let element := parts.flatten
    if (Marked.text element).getLast? == some '"' then plain "(" ++ element ++ plain ")" ++ plain "[]"
    else element ++ plain "[]"
  | .tuple _ => plain "[" ++ (plain ", ").intercalate parts ++ plain "]"
  | .union _ | .enum _ => combinationMarked " | " "never" parts
  | .intersection _ => combinationMarked " & " "unknown" parts
  | .interface members _ =>
    let shown := members.filter fun m => !m.pattern && !m.unreachable
    if shown.isEmpty then plain "\x7b\x7d"
    else
      plain "\x7b" ++ newline none ++
        (shown.zipWith (memberMarked g) parts).flatMap (· ++ newline (some .member)) ++ plain "\x7d"
  | kind => plain (kindText g kind [])

/-- The marked type expression of a node. -/
def expressionMarked (g : TypeGraph) (fresh : List NodeId) (id : NodeId) (path : String) :
    Except CompileError Marked := do
  let node ← nodeAt g id path
  match node.name with
  | some name => return plain (Identifier.sanitize name)
  | none =>
    if _h : id ∈ fresh then
      let parts ← (shown node.kind).mapM fun (segment, child) =>
        expressionMarked g (fresh.erase id) child (Pointer.build path [segment])
      return kindMarked g node.kind parts
    else throw (.unsupportedNode id path .unnamedCycle)
termination_by fresh.length
decreasing_by exact Walk.length_erase_lt_of_mem ‹_›

/-- The marked structure of a node. -/
def structureMarked (g : TypeGraph) (id : NodeId) (node : Node) (path : String) :
    Except CompileError Marked := do
  let parts ← (shown node.kind).mapM fun (segment, child) =>
    expressionMarked g (unexpanded g [id]) child (Pointer.build path [segment])
  return kindMarked g node.kind parts

def aliasMarked (g : TypeGraph) (id : NodeId) (node : Node) (path : String) :
    Except CompileError Marked := do
  let body ← structureMarked g id node path
  return leadingMarked node ++ plain ("export type " ++ declaredName node ++ " = ") ++ body

def interfaceMarked (g : TypeGraph) (id : NodeId) (node : Node) (supers : List NodeId)
    (path : String) : Except CompileError Marked := do
  let names ← supers.zipIdx.mapM fun (super, i) => superName g path super i
  let clause := if names.isEmpty then "" else "extends " ++ String.intercalate ", " names ++ " "
  let body ← structureMarked g id node path
  return leadingMarked node ++
    plain ("export interface " ++ declaredName node ++ " " ++ clause) ++ body

def enumMarked (g : TypeGraph) (options : Options) (id : NodeId) (node : Node)
    (members : List EnumMember) (path : String) : Except CompileError Marked := do
  let lines ← members.mapM fun m => do
    let value ← expressionMarked g (unexpanded g [id]) m.node (Pointer.build path [m.key])
    return plain (keyText m.key ++ " = ") ++ value
  return leadingMarked node ++ plain ("export " ++ (if options.enableConstEnums then "const " else "")
    ++ "enum " ++ declaredName node ++ " \x7b") ++ newline none ++
    (plain "," ++ newline (some .enumMember)).intercalate lines ++ newline (some .enumMember) ++
    plain "\x7d"

end Declaration

namespace Pass

open Declaration

/-- What the last line of a declaration completes. -/
def ending : Pass → Ending
  | .aliases => .alias
  | .interfaces | .enums => .declaration

/-- The text that a pass writes for a node. -/
def declaration (pass : Pass) (options : Options) (g : TypeGraph) (id : NodeId) (node : Node)
    (path : String) : Except CompileError String :=
  match pass with
  | .aliases => aliasText g id node path
  | .interfaces =>
    match node.kind with
    | .interface _ supers => interfaceText g id node supers path
    | _ => return ""
  | .enums =>
    match node.kind with
    | .enum members => enumText g options id node members path
    | _ => return ""

/-- The same text with marks. -/
def declarationMarked (pass : Pass) (options : Options) (g : TypeGraph) (id : NodeId) (node : Node)
    (path : String) : Except CompileError Marked :=
  match pass with
  | .aliases => aliasMarked g id node path
  | .interfaces =>
    match node.kind with
    | .interface _ supers => interfaceMarked g id node supers path
    | _ => return []
  | .enums =>
    match node.kind with
    | .enum members => enumMarked g options id node members path
    | _ => return []

/-- The lines of all declarations of a pass. -/
def lines (pass : Pass) (options : Options) (g : TypeGraph) :
    Except CompileError (List MarkedLine) := do
  let declarations ← (pass.declared g options).mapM fun d =>
    pass.declarationMarked options g d.1 d.2.1 d.2.2
  return declarations.flatMap (·.lines (some pass.ending))

end Pass

namespace Declaration

open Marked (plain newline written)

variable {g : TypeGraph} {options : Options}

/-- The lines of all declarations, with what they complete. -/
def lines (options : Options) (g : TypeGraph) : Except CompileError (List MarkedLine) := do
  return (← Pass.aliases.lines options g) ++ (← Pass.interfaces.lines options g) ++
    (← Pass.enums.lines options g)

/-! ## The texts without marks -/

theorem map_mapM {α β γ ε : Type} {f : α → Except ε β} {f' : α → Except ε γ} {h : β → γ} {l : List α}
    (hf : ∀ a ∈ l, (f a).map h = f' a) : (l.mapM f).map (List.map h) = l.mapM f' := by
  induction l with
  | nil => rfl
  | cons a rest ih =>
      have ih := ih fun b hb => hf b (List.mem_cons_of_mem _ hb)
      rw [List.mapM_cons, List.mapM_cons, ← ih, ← hf a List.mem_cons_self]
      cases f a with
      | error e => rfl
      | ok b => cases rest.mapM f <;> rfl

theorem written_comment (comment : String) :
    (commentMarked comment).written = commentBlock comment ++ "\n" := by
  have hlines : ∀ ls : List (List Char), ls ≠ [] →
      written (ls.flatMap fun line => plain (String.ofList line) ++ newline none) =
        String.ofList (Text.join ['\n'] ls) ++ "\n" := by
    intro ls hne
    induction ls with
    | nil => exact absurd rfl hne
    | cons line rest ih =>
        cases rest with
        | nil => simp [Text.join]
        | cons next more =>
            rw [List.flatMap_cons, Marked.written_append, ih (List.cons_ne_nil _ _)]
            simp [Text.join, String.append_assoc, String.ofList_append]
  exact hlines _ (List.cons_ne_nil _ _)

theorem written_leading (node : Node) : (leadingMarked node).written = leadingComment node := by
  unfold leadingMarked leadingComment
  cases node.comment with
  | none => rfl
  | some comment => exact written_comment comment

theorem written_member (g : TypeGraph) (m : InterfaceMember) (type : Marked) :
    (memberMarked g m type).written = memberText g m type.written := by
  unfold memberMarked memberText
  cases g.get? m.node with
  | none => simp [String.append_assoc]
  | some node =>
      cases hcomment : node.comment with
      | none => simp [hcomment, String.append_assoc]
      | some comment =>
          cases hname : node.name with
          | none => simp [hcomment, hname, written_comment, String.append_assoc]
          | some name => simp [hcomment, hname, String.append_assoc]

theorem written_combination (operator empty : String) (parts : List Marked) :
    (combinationMarked operator empty parts).written =
      combination operator empty (parts.map written) := by
  match parts with
  | [] => exact Marked.written_plain empty
  | [m] => rfl
  | m :: n :: more =>
      simp only [combinationMarked, combination, Marked.written_append, Marked.written_plain,
        Marked.written_intercalate, List.map_cons]

/-- Members on lines of their own. -/
theorem written_members {ms : List Marked} (hne : ms ≠ []) :
    written (ms.flatMap (· ++ newline (some .member))) =
      String.intercalate "\n" (ms.map written) ++ "\n" := by
  induction ms with
  | nil => exact absurd rfl hne
  | cons m rest ih =>
      cases rest with
      | nil => simp
      | cons n more =>
          rw [List.flatMap_cons, Marked.written_append, ih (List.cons_ne_nil _ _)]
          simp [String.append_assoc]

theorem written_kind (g : TypeGraph) {kind : Kind} {parts : List Marked}
    (hlength : parts.length = (shown kind).length) :
    (kindMarked g kind parts).written = kindText g kind (parts.map written) := by
  cases kind with
  | array element =>
      have hquote : (String.join (parts.map written)).toList = Marked.text parts.flatten := by
        rw [← Marked.written_flatten, written, String.toList_ofList]
      simp only [kindMarked, kindText, hquote]
      split
      · simp [Marked.written_flatten, String.append_assoc]
      · simp [Marked.written_flatten]
  | tuple cs => simp [kindMarked, kindText, String.append_assoc]
  | union cs => exact written_combination _ _ _
  | enum members => exact written_combination _ _ _
  | intersection cs => exact written_combination _ _ _
  | interface members supers =>
      simp only [kindMarked, kindText]
      split
      · exact Marked.written_plain _
      · rename_i hempty
        have hne : (members.filter fun m => !m.pattern && !m.unreachable).zipWith (memberMarked g)
            parts ≠ [] := by
          rw [shown, List.length_map] at hlength
          rw [Ne, List.zipWith_eq_nil_iff, ← List.length_eq_zero_iff (l := parts), hlength,
            List.length_eq_zero_iff, or_self, ← List.isEmpty_iff]
          exact hempty
        have hmembers : (members.filter fun m => !m.pattern && !m.unreachable).zipWith
            (memberText g) (parts.map written) =
              ((members.filter fun m => !m.pattern && !m.unreachable).zipWith (memberMarked g)
                parts).map written := by
          rw [List.zipWith_map_right, List.map_zipWith]
          simp only [written_member]
        rw [hmembers]
        simp only [Marked.written_append, written_members hne, Marked.written_plain,
          Marked.written_newline, String.append_assoc]
        rfl
  | _ => simp [kindMarked, kindText]

/-- A structure is written with marks if its parts are. -/
theorem written_structure {kind : Kind} {part : String × NodeId → Except CompileError String}
    {partMarked : String × NodeId → Except CompileError Marked}
    (hpart : ∀ p ∈ shown kind, (partMarked p).map written = part p) :
    ((shown kind).mapM partMarked >>= fun parts => return kindMarked g kind parts).map written =
      (shown kind).mapM part >>= fun parts => return kindText g kind parts := by
  rw [← map_mapM hpart]
  cases hparts : (shown kind).mapM partMarked with
  | error e => rfl
  | ok parts => exact congrArg Except.ok (written_kind g (forall₂_of_mapM hparts).length_eq.symm)

/-- A type expression without its marks. -/
theorem written_expression (g : TypeGraph) (fresh : List NodeId) (id : NodeId) (path : String) :
    (expressionMarked g fresh id path).map written = expression g fresh id path := by
  induction hlen : fresh.length using Nat.strongRecOn generalizing fresh id path with
  | ind n ih =>
      rw [expressionMarked, expression]
      cases nodeAt g id path with
      | error e => rfl
      | ok node =>
          simp only [bind, Except.bind]
          cases hname : node.name with
          | some name => exact congrArg Except.ok (Marked.written_plain _)
          | none =>
            simp only
            split
            · rename_i hmem
              exact written_structure fun p hp =>
                ih _ (hlen ▸ Walk.length_erase_lt_of_mem hmem) _ _ _ rfl
            · rfl

theorem written_structureMarked (id : NodeId) (node : Node) (path : String) :
    (structureMarked g id node path).map written = structureText g id node path :=
  written_structure fun _ _ => written_expression g _ _ _

/-! ## Declarations without marks -/

theorem written_alias (id : NodeId) (node : Node) (path : String) :
    (aliasMarked g id node path).map written = aliasText g id node path := by
  rw [aliasMarked, aliasText, ← written_structureMarked]
  cases structureMarked g id node path with
  | error e => rfl
  | ok body =>
      refine congrArg Except.ok ?_
      simp [written_leading, String.append_assoc]

theorem written_interface (id : NodeId) (node : Node) (supers : List NodeId) (path : String) :
    (interfaceMarked g id node supers path).map written = interfaceText g id node supers path := by
  rw [interfaceMarked, interfaceText, ← written_structureMarked]
  cases supers.zipIdx.mapM fun p => superName g path p.1 p.2 with
  | error e => rfl
  | ok names =>
      cases structureMarked g id node path with
      | error e => rfl
      | ok body =>
          refine congrArg Except.ok ?_
          simp [written_leading, String.append_assoc]

theorem written_enum (id : NodeId) (node : Node) (members : List EnumMember) (path : String) :
    (enumMarked g options id node members path).map written =
      enumText g options id node members path := by
  have hmember : ∀ m ∈ members, (do
      let value ← expressionMarked g (unexpanded g [id]) m.node (Pointer.build path [m.key])
      return plain (keyText m.key ++ " = ") ++ value : Except CompileError Marked).map written = (do
      let value ← expression g (unexpanded g [id]) m.node (Pointer.build path [m.key])
      return keyText m.key ++ " = " ++ value) := by
    intro m _
    rw [← written_expression]
    cases expressionMarked g (unexpanded g [id]) m.node (Pointer.build path [m.key]) with
    | error e => rfl
    | ok value => exact congrArg Except.ok (by simp)
  rw [enumMarked, enumText, ← map_mapM hmember]
  cases members.mapM fun m => (do
      let value ← expressionMarked g (unexpanded g [id]) m.node (Pointer.build path [m.key])
      return plain (keyText m.key ++ " = ") ++ value : Except CompileError Marked) with
  | error e => rfl
  | ok lines =>
      refine congrArg Except.ok ?_
      simp [written_leading, String.append_assoc]
      rfl

/-- A declaration without its marks. -/
theorem written_declaration (pass : Pass) (id : NodeId) (node : Node) (path : String) :
    (pass.declarationMarked options g id node path).map written =
      pass.declaration options g id node path := by
  cases pass with
  | aliases => exact written_alias id node path
  | interfaces =>
      simp only [Pass.declarationMarked, Pass.declaration]
      split
      · exact written_interface id node _ path
      · rfl
  | enums =>
      simp only [Pass.declarationMarked, Pass.declaration]
      split
      · exact written_enum id node _ path
      · rfl

end Declaration

end Typewright
