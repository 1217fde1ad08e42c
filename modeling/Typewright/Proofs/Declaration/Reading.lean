import Typewright.Proofs.Declaration.Names
import Typewright.Proofs.Declaration.Operands
import Typewright.Proofs.Json.Text

/-!
# Type expressions are read as they are meant

A type that is read from its text has the structure of its node, as long as a custom type that stands
as an operand is one (`read_of_writes`).
-/

namespace Typewright

open Reading
open Text (join)

namespace Json

mutual
/-- The structure of a literal: a list is a tuple, and an object has quoted keys. -/
def toShape : Json → Shape
  | .array xs => .tuple (itemShapes xs)
  | .object ms => .object (memberShapes ms)
  | value => .word value.text.toList

def itemShapes : List Json → List Shape
  | [] => []
  | v :: rest => v.toShape :: itemShapes rest

def memberShapes : List (String × Json) → List (List Char × Shape)
  | [] => []
  | (key, v) :: rest => ((quote key).toList, v.toShape) :: memberShapes rest
end

end Json

/-- Only two structures or more make a combination. -/
def Reading.Shape.combination (combine : List Shape → Shape) (empty : String) : List Shape → Shape
  | [] => .word empty.toList
  | [shape] => shape
  | shapes => combine shapes

namespace Kind

/-- The structure of a kind whose parts have some structures. -/
def toShape (kind : Kind) (parts : List Shape) : Shape :=
  match kind with
  | .any => .word "any".toList
  | .boolean => .word "boolean".toList
  | .null => .word "null".toList
  | .number => .word "number".toList
  | .object => .word "object".toList
  | .string => .word "string".toList
  | .customType text => read text.toList
  | .reference text => .word text.toList
  | .literal value => value.toShape
  | .array _ => .array (parts.headD (.word []))
  | .tuple _ => .tuple parts
  | .union _ | .enum _ => .combination .union "never" parts
  | .intersection _ => .combination .intersection "unknown" parts
  | .interface members _ =>
    .object ((members.filter fun m => !m.pattern && !m.unreachable).zipWith
      (fun m part => ((Declaration.keyText m.key ++ (if m.required then "" else "?")).toList, part)) parts)

/-- Whether the parts of a kind stand in front of brackets or between operators. -/
def joins : Kind → Bool
  | .array _ => true
  | .union cs | .intersection cs => decide (2 ≤ cs.length)
  | .enum members => decide (2 ≤ members.length)
  | _ => false

end Kind

namespace TypeGraph

/-- The structure that a node is written for. -/
inductive Denotes (g : TypeGraph) : NodeId → Shape → Prop where
  | named {id : NodeId} {node : Node} {name : String} (built : g.get? id = some node)
      (named : node.name = some name) : Denotes g id (.word (Identifier.sanitize name).toList)
  | unnamed {id : NodeId} {node : Node} {shapes : List Shape} (built : g.get? id = some node)
      (unnamed : node.name = none) (parts : List.Forall₂ (Denotes g) node.kind.rendered shapes) :
      Denotes g id (node.kind.toShape shapes)

/-- The custom types that stand bare in an operand are operands. -/
def Closed (g : TypeGraph) : Prop :=
  ∀ id node c text, g.get? id = some node → node.kind.joins = true → c ∈ node.kind.rendered →
    g.Exposes c text → Operand text.toList

theorem Verbatim.of_exposes {g : TypeGraph} {P : List Char → Prop} (h : g.Verbatim P) {id : NodeId}
    {text : String} (he : g.Exposes id text) : P text.toList := by
  induction he with
  | custom built _ kind => exact h.custom _ _ _ built kind
  | lone _ _ _ _ _ ih => exact ih

theorem Verbatim.closed {g : TypeGraph} (h : g.Verbatim Operand) : g.Closed :=
  fun _ _ _ _ _ _ _ he => h.of_exposes he

theorem Verbatim.balanced {g : TypeGraph} (h : g.Verbatim Item) : g.Verbatim Balanced where
  custom id node text hn hk := (h.custom id node text hn hk).balanced
  reference := h.reference

end TypeGraph

namespace Declaration

variable {g : TypeGraph} {kind : Kind} {parts : List String}

/-! ## Literals -/

theorem join_eq_separated {α : Type} (write : α → List Char) (xs : List α) :
    join [','] (xs.map write) = Json.separated write xs := by
  induction xs with
  | nil => rfl
  | cons x rest ih =>
      cases rest with
      | nil => rfl
      | cons y rest =>
          have hne : (y :: rest).map write ≠ [] := List.cons_ne_nil _ _
          rw [Json.separated_cons, ← ih, List.map_cons, Text.join_cons _ hne]
          simp

theorem read_items (xs : List Json) :
    read (Json.array xs).text.toList = .tuple (xs.map fun x => read x.text.toList) := by
  have hparts : ∀ part ∈ xs.map fun x => x.text.toList, Item part := by
    intro part hpart
    obtain ⟨x, -, rfl⟩ := List.mem_map.1 hpart
    exact (operand_text x).item
  have htext : (Json.array xs).text.toList =
      '[' :: join [','] (xs.map fun x => x.text.toList) ++ [']'] := by
    simp [Json.text, Json.textItems_eq, join_eq_separated]
  rw [htext, read_tupleText .nil hparts, List.map_map]
  rfl

theorem read_members (ms : List (String × Json)) :
    read (Json.object ms).text.toList =
      .object (ms.map fun m => ((Json.quote m.1).toList, read m.2.text.toList)) := by
  have hquote : ∀ key, Operand (Json.quote key).toList := fun key =>
    .of_shows (shows_quote key) (by decide) (by simp [Json.quote])
  have hpairs : ∀ m ∈ ms.map fun m => ((Json.quote m.1).toList, m.2.text.toList),
      Item m.1 ∧ Item m.2 := by
    intro m hm
    obtain ⟨m, -, rfl⟩ := List.mem_map.1 hm
    exact ⟨(hquote m.1).item, (operand_text m.2).item⟩
  have htext : (Json.object ms).text.toList = '{' :: join [','] ((ms.map fun m =>
      ((Json.quote m.1).toList, m.2.text.toList)).map fun m => join [':'] [m.1, m.2]) ++ ['}'] := by
    have hmember : (fun m : String × Json => join [':'] [(Json.quote m.1).toList, m.2.text.toList]) =
        Json.textMember := by
      funext m
      simp [join, Json.textMember]
    rw [List.map_map, Function.comp_def, hmember, join_eq_separated]
    simp [Json.text, Json.textMembers_eq]
  rw [htext, read_membersText hpairs, List.map_map]
  rfl

theorem not_brackets_suffix_quote (s : String) : ¬ "[]".toList <:+ (Json.string s).text.toList := by
  rintro ⟨front, hfront⟩
  have hbracket : (front ++ "[]".toList).getLast? = some ']' := by simp
  have hquote : (Json.string s).text.toList.getLast? = some '"' := by
    rw [Json.text, Json.quote, String.toList_ofList]
    exact List.getLast?_concat
  rw [hfront, hquote] at hbracket
  cases hbracket

mutual
theorem read_literal : (v : Json) → read v.text.toList = v.toShape
  | .null => (operand_parts (by decide) (by decide)).2
  | .bool true => (operand_parts (by decide) (by decide)).2
  | .bool false => (operand_parts (by decide) (by decide)).2
  | .number n =>
      have hall : ∀ c ∈ Number.numerals, isPlain c = true ∧ isJoint c = false := by decide
      (operand_word (fun c hc => hall c (Number.mem_numerals_text n c hc)) n.text_ne_nil).2
  | .string s =>
      have houter := (shows_quote s).outer
      read_word (single_of_outer (houter.symm ▸ by decide)) (houter.symm ▸ by decide)
        (not_brackets_suffix_quote s)
  | .array xs => by rw [read_items, Json.toShape, map_read_literal]
  | .object ms => by rw [read_members, Json.toShape, map_read_members]

theorem map_read_literal :
    (xs : List Json) → xs.map (fun x => read x.text.toList) = Json.itemShapes xs
  | [] => rfl
  | x :: rest => by rw [List.map_cons, read_literal x, map_read_literal rest, Json.itemShapes]

theorem map_read_members : (ms : List (String × Json)) →
    ms.map (fun m => ((Json.quote m.1).toList, read m.2.text.toList)) = Json.memberShapes ms
  | [] => rfl
  | (key, v) :: rest => by
      rw [List.map_cons, read_literal v, map_read_members rest, Json.memberShapes]
end

/-! ## Kinds with parts -/

theorem operand_enclosed {cs : List Char} {opener closer : Char} (h : Balanced cs)
    (hopen : closer? opener = some closer) (hmark : isJoint opener = false) :
    Operand (opener :: cs ++ [closer]) :=
  .of_shows (h.enclosed hopen) (fun _ hc => List.mem_singleton.1 hc ▸ hmark) (List.cons_ne_nil _ _)

theorem operand_array (element : NodeId) {part : String} (h : Operand part.toList) :
    Operand (kindText g (.array element) [part]).toList ∧
      read (kindText g (.array element) [part]).toList = .array (read part.toList) := by
  obtain ⟨operand, htext, hoperand, hread⟩ : ∃ operand : String,
      kindText g (.array element) [part] = operand ++ "[]" ∧ Operand operand.toList ∧
        read operand.toList = read part.toList := by
    rw [kindText_array]
    split
    · have hround : ("(" ++ part ++ ")").toList = '(' :: part.toList ++ [')'] := by simp
      refine ⟨_, rfl, hround ▸ operand_enclosed h.balanced rfl (by decide), ?_⟩
      rw [hround, read_round h.balanced, h.trim_eq]
    · exact ⟨_, rfl, h, rfl⟩
  obtain ⟨hshows, harray⟩ := hoperand.brackets
  rw [htext, String.toList_append, harray, hread]
  refine ⟨.of_shows hshows (fun c hc => ?_) (List.append_ne_nil_of_left_ne_nil hoperand.ne _), rfl⟩
  rcases List.mem_append.1 hc with hc | hc
  · exact hoperand.free c hc
  · exact List.mem_singleton.1 hc ▸ by decide

theorem balanced_join {separator : List Char} (hseparator : Balanced separator)
    {parts : List (List Char)} (h : ∀ part ∈ parts, Balanced part) :
    Balanced (join separator parts) := by
  obtain ⟨o, hshows, -⟩ := shows_join separator hseparator h
  exact hshows.balanced

/-- A combination is its only part, or an operand. -/
theorem read_combination {operator empty : String} {combine : List Shape → Shape}
    (hoperator : Balanced operator.toList) (hempty : empty ∈ keywords)
    (hread : ∀ parts : List (List Char), (∀ part ∈ parts, Operand part) → 2 ≤ parts.length →
      read ('(' :: join operator.toList parts ++ [')']) = combine (parts.map read))
    (hitems : ∀ part ∈ parts, Item part.toList)
    (hoperands : 2 ≤ parts.length → ∀ part ∈ parts, Operand part.toList) :
    Item (combination operator empty parts).toList ∧
      read (combination operator empty parts).toList =
        .combination combine empty (parts.map fun part => read part.toList) := by
  by_cases hlen : 2 ≤ parts.length
  · have hall : ∀ part ∈ parts.map String.toList, Operand part := by
      intro part hpart
      obtain ⟨part, hmem, rfl⟩ := List.mem_map.1 hpart
      exact hoperands hlen part hmem
    have hbalanced := balanced_join hoperator fun part hpart => (hall part hpart).balanced
    rw [toList_combination _ _ hlen, hread _ hall (by simpa using hlen), List.map_map]
    refine ⟨(operand_enclosed hbalanced rfl (by decide)).item, ?_⟩
    match parts, hlen with
    | _ :: _ :: _, _ => rfl
  · match parts, hlen with
    | [], _ => exact ⟨(operand_keyword hempty).1.item, (operand_keyword hempty).2⟩
    | [part], _ => exact ⟨hitems part List.mem_cons_self, rfl⟩
    | _ :: _ :: _, hlen => exact absurd (Nat.le_add_left 2 _) hlen

theorem read_tuple_text (cs : List NodeId) (hitems : ∀ part ∈ parts, Item part.toList) :
    Item (kindText g (.tuple cs) parts).toList ∧
      read (kindText g (.tuple cs) parts).toList =
        .tuple (parts.map fun part => read part.toList) := by
  have hall : ∀ part ∈ parts.map String.toList, Item part := by
    intro part hpart
    obtain ⟨part, hmem, rfl⟩ := List.mem_map.1 hpart
    exact hitems part hmem
  have hbalanced := balanced_join (show Balanced ", ".toList by decide) fun part hpart =>
    (hall part hpart).balanced
  have hread := read_tupleText (margin_blank rfl) hall
  rw [toList_tuple, show ", ".toList = ',' :: [' '] from rfl, hread, List.map_map]
  exact ⟨(operand_enclosed hbalanced rfl (by decide)).item, rfl⟩

/-! ## Interfaces -/

theorem sound_memberLines (m : InterfaceMember) {type : String} (h : Item type.toList) :
    ∀ line ∈ memberLines g m type, line.Sound := by
  intro line hline
  rcases List.mem_append.1 hline with hline | hline
  · obtain ⟨comment, -, rfl⟩ := List.mem_map.1 hline
    exact item_commentBlock comment
  · obtain rfl := List.mem_singleton.1 hline
    exact ⟨item_keyText m.key m.required, h⟩

/-- Comments are no members. -/
theorem filterMap_memberLines (m : InterfaceMember) (type : String) :
    (memberLines g m type).filterMap Line.member? =
      [((keyText m.key ++ (if m.required then "" else "?")).toList, type.toList)] := by
  rw [memberLines]
  cases memberComment g m <;> rfl

theorem filterMap_interfaceLines (members : List InterfaceMember) :
    (interfaceLines g members parts).filterMap Line.member? =
      (members.filter fun m => !m.pattern && !m.unreachable).zipWith (fun m part =>
        ((keyText m.key ++ (if m.required then "" else "?")).toList, part.toList)) parts := by
  rw [interfaceLines]
  generalize members.filter (fun m => !m.pattern && !m.unreachable) = written
  induction written generalizing parts with
  | nil => rfl
  | cons m rest ih =>
      cases parts with
      | nil => rfl
      | cons part more =>
          rw [List.zipWith_cons_cons, List.flatten_cons, List.filterMap_append,
            filterMap_memberLines, ih]
          rfl

theorem read_interface (members : List InterfaceMember) (supers : List NodeId)
    (hlen : parts.length = (Kind.interface members supers).rendered.length)
    (hitems : ∀ part ∈ parts, Item part.toList) :
    Item (kindText g (.interface members supers) parts).toList ∧
      read (kindText g (.interface members supers) parts).toList =
        (Kind.interface members supers).toShape (parts.map fun part => read part.toList) := by
  have hshows := shows_interface (g := g) members supers hlen fun part hpart =>
    (hitems part hpart).balanced
  have hsound : ∀ line ∈ interfaceLines g members parts, line.Sound := by
    intro line hline
    obtain ⟨m, part, hpart, hline⟩ := exists_mem_memberLines hline
    exact sound_memberLines m (hitems part hpart) line hline
  have hshape : Shape.object (((interfaceLines g members parts).filterMap Line.member?).map
      fun m => (m.1, read m.2)) =
        (Kind.interface members supers).toShape (parts.map fun part => read part.toList) := by
    rw [filterMap_interfaceLines, Kind.toShape, List.map_zipWith, List.zipWith_map_right]
  rw [← hshape]
  rcases toList_interface (g := g) members supers hlen with ⟨hnil, htext⟩ | htext
  · rw [htext] at hshows ⊢
    refine ⟨(Operand.of_shows hshows (by decide) (List.cons_ne_nil _ _)).item, ?_⟩
    have hempty : Balanced [] := rfl
    rw [read_brace hempty, hnil]
    rfl
  · rw [htext] at hshows ⊢
    exact ⟨(Operand.of_shows hshows (by decide) (List.cons_ne_nil _ _)).item,
      read_objectText hsound⟩

/-! ## All kinds -/

/-- What is written for a kind is an item, and is read as the kind with what its parts are read
as. -/
theorem read_kindText (hlen : parts.length = kind.rendered.length)
    (hcustom : ∀ text, kind = .customType text → Item text.toList)
    (hreference : ∀ text, kind = .reference text → Identifier.isBare text.toList = true)
    (hitems : ∀ part ∈ parts, Item part.toList)
    (hoperands : kind.joins = true → ∀ part ∈ parts, Operand part.toList) :
    Item (kindText g kind parts).toList ∧
      read (kindText g kind parts).toList = kind.toShape (parts.map fun part => read part.toList) := by
  have hword : ∀ {word}, word ∈ keywords →
      Item word.toList ∧ read word.toList = .word word.toList := fun h =>
    ⟨(operand_keyword h).1.item, (operand_keyword h).2⟩
  have hjoins : ∀ {n}, kind.rendered.length = n → (2 ≤ n → kind.joins = true) →
      2 ≤ parts.length → ∀ part ∈ parts, Operand part.toList := fun hn hjoins htwo =>
    hoperands (hjoins (hn ▸ hlen ▸ htwo))
  cases kind with
  | any => exact hword (show "any" ∈ keywords by decide)
  | boolean => exact hword (show "boolean" ∈ keywords by decide)
  | null => exact hword (show "null" ∈ keywords by decide)
  | number => exact hword (show "number" ∈ keywords by decide)
  | object => exact hword (show "object" ∈ keywords by decide)
  | string => exact hword (show "string" ∈ keywords by decide)
  | customType text => exact ⟨hcustom text rfl, rfl⟩
  | reference text =>
      obtain ⟨hoperand, hread⟩ := operand_bare (hreference text rfl)
      exact ⟨hoperand.item, hread⟩
  | literal value => exact ⟨(operand_text value).item, read_literal value⟩
  | array element =>
      obtain ⟨part, rfl⟩ := List.length_eq_one_iff.1 hlen
      obtain ⟨hoperand, hread⟩ := @operand_array g element part (hoperands rfl part List.mem_cons_self)
      exact ⟨hoperand.item, hread⟩
  | tuple cs => exact read_tuple_text cs hitems
  | union cs =>
      exact read_combination (by decide) (by decide) (fun _ => read_unionText) hitems
        (hjoins rfl decide_eq_true)
  | enum members =>
      exact read_combination (by decide) (by decide) (fun _ => read_unionText) hitems
        (hjoins (List.length_map _) decide_eq_true)
  | intersection cs =>
      exact read_combination (by decide) (by decide) (fun _ => read_intersectionText) hitems
        (hjoins rfl decide_eq_true)
  | interface members supers => exact read_interface members supers hlen hitems

/-! ## Type expressions -/

/-- An item in which no custom type stands bare that is no operand is one itself. -/
theorem operand_of_guards {id : NodeId} {text : String} (hi : Item text.toList)
    (hg : g.Guards id text) (hclosed : ∀ custom, g.Exposes id custom → Operand custom.toList) :
    Operand text.toList := by
  refine ⟨hi.ne, hi.balanced, fun c hc => ?_⟩
  by_contra hmark
  have hmark : isJoint c = true := by simpa using hmark
  obtain ⟨custom, hexposes, hshown⟩ := hg.marks c hc hmark
  rw [(hclosed custom hexposes).free c hshown] at hmark
  cases hmark

/-- The parts of a node are read as what they denote, so it is. -/
theorem read_of_parts (hv : g.Verbatim Item) (hclosed : g.Closed) {id : NodeId} {node : Node}
    (hn : g.get? id = some node) (hparts : List.Forall₂ (fun c part => g.Guards c part ∧
      Item part.toList ∧ g.Denotes c (read part.toList)) node.kind.rendered parts) :
    Item (kindText g node.kind parts).toList ∧ ∃ shapes,
      List.Forall₂ g.Denotes node.kind.rendered shapes ∧
      read (kindText g node.kind parts).toList = node.kind.toShape shapes := by
  have hpart : ∀ part ∈ parts, ∃ c ∈ node.kind.rendered, g.Guards c part ∧ Item part.toList :=
    fun part hpart => by
      obtain ⟨c, hc, hguards, hitem, -⟩ := exists_of_forall₂_left hparts.flip hpart
      exact ⟨c, hc, hguards, hitem⟩
  have hoperands : node.kind.joins = true → ∀ part ∈ parts, Operand part.toList := by
    intro hjoins part hmem
    obtain ⟨c, hc, hguards, hitem⟩ := hpart part hmem
    exact operand_of_guards hitem hguards fun custom => hclosed id node c custom hn hjoins hc
  obtain ⟨hitem, hread⟩ := read_kindText (g := g) hparts.length_eq.symm
    (fun text => hv.custom id node text hn) (fun text => hv.reference id node text hn)
    (fun part hmem => (hpart part hmem).elim fun _ h => h.2.2) hoperands
  exact ⟨hitem, _, List.forall₂_map_right_iff.2 (hparts.imp fun _ _ h => h.2.2), hread⟩

/-- A type expression is read as what it is written for. -/
theorem read_written (hl : g.Labelled) (hv : g.Verbatim Item) (hclosed : g.Closed)
    {id : NodeId} {text : String} (h : g.Written id text) :
    Item text.toList ∧ g.Denotes id (read text.toList) := by
  let P : NodeId → String → Prop := fun id text =>
    g.Guards id text ∧ Item text.toList ∧ g.Denotes id (read text.toList)
  have hnamed : ∀ {id node name}, g.get? id = some node → node.name = some name →
      P id (Identifier.sanitize name) := by
    intro id node name hn hname
    have hclean := hl.clean id node name hn hname
    obtain ⟨hoperand, hread⟩ := operand_bare hclean.bare
    have hdenotes := TypeGraph.Denotes.named hn hname
    rw [Identifier.sanitize_of_clean hclean] at hdenotes ⊢
    exact ⟨⟨hoperand.balanced, fun c hc hmark => absurd hmark (by simp [hoperand.free c hc])⟩,
      hoperand.item, hread ▸ hdenotes⟩
  have hunnamed : ∀ {id node parts}, g.get? id = some node → node.name = none →
      List.Forall₂ P node.kind.rendered parts → P id (kindText g node.kind parts) := by
    intro id node parts hn hname hparts
    obtain ⟨hitem, shapes, hdenotes, hread⟩ := read_of_parts hv hclosed hn hparts
    exact ⟨guards_kindText hv.balanced hn hname (hparts.imp fun _ _ h => h.1), hitem,
      hread ▸ .unnamed hn hname hdenotes⟩
  obtain ⟨fresh, path, h⟩ := h
  exact (expression_induction hnamed hunnamed h).2

/-- A type that is written for a node is read as the kind of the node, with the structures of its
parts. -/
theorem read_of_writes (hl : g.Labelled) (hv : g.Verbatim Item) (hclosed : g.Closed) {id : NodeId}
    {node : Node} {text : String} (h : g.Writes id node text) :
    ∃ shapes, List.Forall₂ g.Denotes node.kind.rendered shapes ∧
      read text.toList = node.kind.toShape shapes := by
  obtain ⟨parts, hparts, rfl⟩ := exists_parts_of_writes h
  obtain ⟨-, hread⟩ := read_of_parts hv hclosed h.1 (hparts.imp fun _ _ hpart =>
    ⟨guards_expression hv.balanced hpart, read_written hl hv hclosed hpart⟩)
  exact hread

end Declaration

end Typewright
