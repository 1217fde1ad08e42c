import Mathlib
import Typewright.Proofs.Declaration.Comment
import Typewright.Proofs.Declaration.Output
import Typewright.Proofs.Layout.Pieces
import Typewright.Proofs.Layout.Statements

/-!
# The layout of declarations

The layout takes the text of every type graph without custom types whose references are words: names,
keys, descriptions and literals may hold any characters. It adds a semicolon to the line that
completes a member of an interface or a type alias, and to no other (`exists_format_of_text`).
-/

namespace Typewright.Declaration

open Layout
open Marked (plain newline)
open Text (content trim isBlank pieces Tight)

variable {g : TypeGraph} {options : Options} {style : Style} {before : List (List Char)} {c : Cursor}
  {B : List Bracket} {a : Bool}

/-! ## Keys -/

/-- A key leaves open what is open and starts neither a comment nor, with what follows it, an enum. -/
structure KeyText (cs : List Char) : Prop where
  balanced : Balanced cs
  head : ∃ d more, cs = d :: more ∧ isBlank d = false ∧ d ≠ '/'
  plain : ∀ mark more, mark = ':' ∨ mark = '?' → isEnumHead (cs ++ mark :: more) = false

theorem keyText_of_head {d : Char} {rest : List Char} (hbalanced : Balanced (d :: rest))
    (hd : isBlank d = false) (hslash : d ≠ '/') (hwords : ∀ word ∈ enumWords, d ∉ word.toList) :
    KeyText (d :: rest) where
  balanced := hbalanced
  head := ⟨d, rest, rfl, hd, hslash⟩
  plain mark more _ := @isEnumHead_eq_false [] nofun d hd hwords (rest ++ mark :: more)

theorem keyText_bare {cs : List Char} (h : Identifier.isBare cs = true) : KeyText cs where
  balanced := (word_of_isBare h).flat.balanced
  head := by
    cases cs with
    | nil => cases h
    | cons d rest =>
        refine ⟨d, rest, rfl, (word_of_isBare h d List.mem_cons_self).2.1, ?_⟩
        rintro rfl
        cases h
  plain mark more hmark := by
    refine isEnumHead_eq_false (fun c hc => (word_of_isBare h c hc).2.1) ?_ ?_ more
    · rcases hmark with rfl | rfl <;> rfl
    · rcases hmark with rfl | rfl <;> decide

/-- Every key is written as the text of a key. -/
theorem keyText_keyText (key : String) : KeyText (keyText key).toList := by
  unfold keyText
  split
  · rename_i h
    rcases Bool.or_eq_true_iff.1 h with h | h
    · have hword : Balanced "k: string".toList := Flat.balanced (by decide)
      have hsquare : opened '[' false = some .square := rfl
      rw [eq_of_beq h]
      exact keyText_of_head (hword.enclosed hsquare) rfl (by decide) (by decide)
    · exact keyText_bare h
  · have hquote := balanced_quote key
    rw [Json.quote, String.toList_ofList] at hquote ⊢
    exact keyText_of_head hquote rfl (by decide) (by decide)

/-! ## Members -/

theorem lineIsAlias_of_open {s : State} {bracket : Bracket}
    (h : s.stack.map (·.bracket) = bracket :: B) (line : List Char) :
    lineIsAlias s line = s.isAlias := by
  unfold lineIsAlias
  cases hstack : s.stack with
  | nil => simp [hstack] at h
  | cons frame rest => rfl

/-- A key and what stands between it and a type, inside of delimiters. -/
theorem feeds_key (key : String) {tail : String} (init : List Char) (d : Char) {bracket : Bracket}
    (h : Fresh style before false c (bracket :: B) a) (htail : tail.toList = init ++ [d, ' '])
    (hflat : Flat tail.toList) (hd : isBlank d = false ∧ endsOpen d = false)
    (hplain : .enum ∈ bracket :: B ∨ ∃ mark rest, init ++ [d] = mark :: rest ∧
      (mark = ':' ∨ mark = '?')) :
    Feeds style c (plain (keyText key ++ tail)) fun c' =>
      Within style before c' (bracket :: B) a ∧ Closed c'.line := by
  have hkey := keyText_keyText key
  have hall : (keyText key ++ tail).toList = (keyText key).toList ++ init ++ [d] ++ [' '] := by
    rw [String.toList_append, htail]
    simp
  have hboth : Balanced (keyText key ++ tail).toList := by
    rw [String.toList_append]
    exact hkey.balanced.append hflat.balanced
  have hfront : Front c.state ((keyText key).toList ++ init ++ [d]) a := by
    refine ⟨?_, ⟨_, d, rfl, hd.1⟩, fun more => ?_⟩
    · obtain ⟨e, more, he, hblank, hslash⟩ := hkey.head
      exact ⟨e, more ++ init ++ [d], by rw [he]; rfl, hblank, hslash⟩
    · rw [lineIsAlias_of_open h.brackets, h.isAlias]
  have hguarded : Guarded (bracket :: B) ((keyText key).toList ++ init ++ [d]) := by
    refine hplain.imp_right fun ⟨mark, rest, hmark, hmarks⟩ more => ?_
    rw [List.append_assoc (keyText key).toList, hmark, List.append_assoc, List.cons_append]
    exact hkey.plain mark (rest ++ more) hmarks
  refine (h.feeds_plain hboth.line ⟨[' '], hall.symm⟩ hfront hguarded
    fun number head _ => hboth.reads number head _ nofun).mono fun c' hc' => ⟨hc'.2, ?_⟩
  rw [hc'.1, hall]
  exact (closed_concat hd.1 hd.2 _).space

/-- A member of an interface in its line or lines. -/
theorem feeds_member (m : InterfaceMember) {type : Marked} (htype : Fits type)
    (h : Fresh style before false c (.object :: B) a) :
    Feeds style c (memberMarked g m type ++ newline (some .member)) fun c' =>
      Fresh style before false c' (.object :: B) a := by
  obtain ⟨comment, hmember, hcomment⟩ : ∃ comment, memberMarked g m type = comment ++
      plain (keyText m.key ++ (if m.required then "" else "?") ++ ": ") ++ type ∧
      Feeds style c comment fun c' => Fresh style before false c' (.object :: B) a := by
    refine ⟨_, rfl, ?_⟩
    split
    · split
      · exact feeds_commentMarked _ h
      · exact .nil h
    · exact .nil h
  have hkey : ∀ c', Fresh style before false c' (.object :: B) a →
      Feeds style c' (plain (keyText m.key ++ (if m.required then "" else "?") ++ ": ")) fun c' =>
        Within style before c' (.object :: B) a ∧ Closed c'.line := by
    intro c' hc'
    rw [String.append_assoc]
    cases m.required with
    | true =>
        exact feeds_key m.key [] ':' hc' rfl (by decide) (by decide)
          (.inr ⟨':', [], rfl, .inl rfl⟩)
    | false =>
        exact feeds_key m.key ['?'] ':' hc' rfl (by decide) (by decide)
          (.inr ⟨'?', [':'], rfl, .inr rfl⟩)
  rw [hmember]
  refine ((hcomment.append hkey).append fun c' hc' => htype.feeds hc').append fun c' hc' => ?_
  exact hc'.1.feeds_newline (fun stack hstack => needsSemicolon_of_closed hc'.2 hstack)
    fun _ => hc'.2.not_semicolon

/-- A closing brace starts no enum. -/
theorem guarded_brace (B : List Bracket) : Guarded B "\x7d".toList :=
  .inr fun more => @isEnumHead_eq_false [] nofun '}' rfl (by decide) more

/-- A brace on a line of its own closes what is innermost. -/
theorem feeds_brace {bracket : Bracket} (hbracket : bracket.closer = '}')
    (h : Fresh style before false c (bracket :: B) a) : Feeds style c (plain "\x7d") fun c' =>
      Within style before c' B a ∧ Closed c'.line := by
  have hfront : Front c.state "\x7d".toList a := by
    refine ⟨⟨'}', [], rfl, rfl, by decide⟩, ⟨[], '}', rfl, rfl⟩, fun more => ?_⟩
    rw [lineIsAlias_of_open h.brackets, h.isAlias]
  have hreads : ∀ number head, Reads number head (.outside (bracket :: B)) "\x7d".toList
      (.outside B) := by
    intro number head
    have hcloser : Reads number head (.outside (bracket :: B)) [bracket.closer] (.outside B) :=
      reads_closer bracket
    rwa [hbracket] at hcloser
  refine (h.feeds_plain (by decide) (List.prefix_refl _) hfront (guarded_brace B)
    fun number head _ => hreads number head).mono fun c' hc' => ⟨hc'.2, ?_⟩
  rw [hc'.1]
  exact closed_concat rfl rfl []

/-- The members of an interface between braces, each on lines of its own. -/
theorem shuts_members {ms : List Marked} (hms : ∀ m ∈ ms, ∀ (style : Style)
      (before : List (List Char)) (c : Cursor) (B : List Bracket) (a : Bool),
      Fresh style before false c (.object :: B) a →
        Feeds style c (m ++ newline (some .member)) fun c' =>
          Fresh style before false c' (.object :: B) a) :
    Shuts (plain "\x7b" ++ newline none ++ ms.flatMap (· ++ newline (some .member)) ++
      plain "\x7d") := by
  intro style before c B a hc
  have hfirst : Feeds style c (plain "\x7b" ++ newline none) fun c' =>
      Fresh style before false c' (.object :: B) a := by
    refine (feeds_opener hc rfl (o := '{') rfl).append fun c' hc' =>
      hc'.2.feeds_newline (fun stack _ => ?_) (absurd rfl)
    refine needsSemicolon_of_open (d := '{') ?_ rfl stack
    rw [hc'.1, Text.trim_concat rfl, List.getLast?_concat]
  have hbody : ∀ (ms' : List Marked) (c : Cursor), (∀ m ∈ ms', m ∈ ms) →
      Fresh style before false c (.object :: B) a →
        Feeds style c (ms'.flatMap (· ++ newline (some .member))) fun c' =>
          Fresh style before false c' (.object :: B) a := by
    intro ms'
    induction ms' with
    | nil => exact fun c _ hc => .nil hc
    | cons m rest ih =>
        intro c hall hc
        exact (hms m (hall m List.mem_cons_self) style before c B a hc).append fun c' =>
          ih c' fun m hm => hall m (List.mem_cons_of_mem _ hm)
  refine (hfirst.append fun c' => hbody ms c' fun _ => id).append fun c' hc' => ?_
  exact feeds_brace rfl hc'

/-! ## Types -/

/-- A kind whose text is made of words, JSON values and the texts of its parts. -/
def Wordy : Kind → Prop
  | .customType _ => False
  | .reference text => Word text.toList
  | _ => True

theorem fits_combination {operator empty : String} (hoperator : Balanced operator.toList)
    (hempty : Word empty.toList) {parts : List Marked} (hparts : ∀ m ∈ parts, Fits m) :
    Fits (combinationMarked operator empty parts) := by
  match parts with
  | [] => exact fits_word hempty
  | [m] => exact hparts m List.mem_cons_self
  | m :: n :: more =>
      exact (shuts_enclosed (passes_intercalate (passes_plain hoperator) fun m hm =>
        (hparts m hm).passes) .paren rfl rfl rfl).fits

theorem shuts_interface (members : List InterfaceMember) (supers : List NodeId)
    {parts : List Marked} (hparts : ∀ m ∈ parts, Fits m) :
    Shuts (kindMarked g (.interface members supers) parts) := by
  have hbraces : Shuts (plain "\x7b" ++ [] ++ plain "\x7d") :=
    shuts_enclosed Fits.nil.passes .object rfl rfl rfl
  simp only [kindMarked]
  split
  · exact hbraces
  · refine shuts_members fun m hm style before c B a hc => ?_
    rw [← List.map_uncurry_zip_eq_zipWith] at hm
    obtain ⟨⟨member, part⟩, hzip, rfl⟩ := List.mem_map.1 hm
    exact feeds_member member (hparts part (List.of_mem_zip hzip).2) hc

theorem fits_kind {kind : Kind} (hkind : Wordy kind) {parts : List Marked}
    (hparts : ∀ m ∈ parts, Fits m) : Fits (kindMarked g kind parts) := by
  cases kind with
  | customType text => exact hkind.elim
  | reference text => exact fits_word hkind
  | literal value => exact fits_plain (balanced_text value) (tidy_text value)
  | any => exact @fits_word "any" (by decide)
  | boolean => exact @fits_word "boolean" (by decide)
  | null => exact @fits_word "null" (by decide)
  | number => exact @fits_word "number" (by decide)
  | object => exact @fits_word "object" (by decide)
  | string => exact @fits_word "string" (by decide)
  | array element =>
      have hbrackets : Fits (plain "[" ++ [] ++ plain "]") :=
        (shuts_enclosed Fits.nil.passes .square rfl rfl rfl).fits
      have helement : Fits parts.flatten := fits_flatten hparts
      simp only [kindMarked]
      split
      · exact (shuts_enclosed helement.passes .paren rfl rfl rfl).fits.append hbrackets
      · exact helement.append hbrackets
  | tuple cs =>
      have hcomma : Balanced ", ".toList := Flat.balanced (by decide)
      exact (shuts_enclosed (passes_intercalate (passes_plain hcomma) fun m hm =>
        (hparts m hm).passes) .square rfl rfl rfl).fits
  | union cs =>
      exact fits_combination (Flat.balanced (by decide)) (by decide) hparts
  | enum members =>
      exact fits_combination (Flat.balanced (by decide)) (by decide) hparts
  | intersection cs =>
      exact fits_combination (Flat.balanced (by decide)) (by decide) hparts
  | interface members supers => exact (shuts_interface members supers hparts).fits

/-- All nodes of a graph have texts of words, JSON values and the texts of their parts. -/
def WordyGraph (g : TypeGraph) : Prop := ∀ id node, g.get? id = some node → Wordy node.kind

theorem get?_of_nodeAt {id : NodeId} {path : String} {node : Node}
    (h : nodeAt g id path = .ok node) : g.get? id = some node := by
  unfold nodeAt at h
  split at h
  · split at h
    · rename_i hn
      rw [hn, Except.ok.inj h]
    · cases h
  · cases h

theorem fits_expression (hg : WordyGraph g) {fresh : List NodeId} {id : NodeId} {path : String}
    {m : Marked} (h : expressionMarked g fresh id path = .ok m) : Fits m := by
  induction hlen : fresh.length using Nat.strongRecOn generalizing fresh id path m with
  | ind n ih =>
      rw [expressionMarked] at h
      obtain ⟨node, hnode, h⟩ := Loading.ok_of_bind h
      cases hname : node.name with
      | some name =>
          rw [hname] at h
          obtain rfl := Except.ok.inj h
          exact fits_word (word_sanitize name)
      | none =>
          rw [hname] at h
          simp only at h
          split at h
          · rename_i hmem
            obtain ⟨parts, hparts, h⟩ := Loading.ok_of_bind h
            obtain rfl := Except.ok.inj h
            refine fits_kind (hg id node (get?_of_nodeAt hnode)) fun part hpart => ?_
            obtain ⟨p, -, hp⟩ := exists_of_mapM hparts hpart
            exact ih _ (hlen ▸ Walk.length_erase_lt_of_mem hmem) hp rfl
          · cases h

theorem exists_structure (hg : WordyGraph g) {id : NodeId} {node : Node} {path : String}
    {m : Marked} (h : structureMarked g id node path = .ok m) :
    ∃ parts, m = kindMarked g node.kind parts ∧ ∀ part ∈ parts, Fits part := by
  obtain ⟨parts, hparts, h⟩ := Loading.ok_of_bind h
  obtain rfl := Except.ok.inj h
  refine ⟨parts, rfl, fun part hpart => ?_⟩
  obtain ⟨p, -, hp⟩ := exists_of_mapM hparts hpart
  exact fits_expression hg hp

/-! ## Declarations -/

theorem feeds_leading (node : Node) (h : Fresh style before false c B a) :
    Feeds style c (leadingMarked node) fun c' => Fresh style before false c' B a := by
  unfold leadingMarked
  split
  · exact feeds_commentMarked _ h
  · exact .nil h

theorem flat_declaredName (node : Node) : Flat (declaredName node).toList :=
  (word_sanitize _).flat

theorem lineIsAlias_of_outermost {s : State} (h : s.stack.map (·.bracket) = []) (line : List Char) :
    lineIsAlias s line = (startsWith "export type " line || startsWith "type " line) := by
  rw [lineIsAlias, List.map_eq_nil_iff.1 h]
  rfl

theorem feeds_alias (hg : WordyGraph g) {id : NodeId} {node : Node} {path : String} {m : Marked}
    (hkind : Wordy node.kind) (hm : aliasMarked g id node path = .ok m)
    (h : Fresh style before false c [] a) : Feeds style c m fun c' =>
      Within style before c' [] true ∧ Closed c'.line := by
  obtain ⟨body, hbody, hm⟩ := Loading.ok_of_bind hm
  obtain rfl := Except.ok.inj hm
  obtain ⟨parts, rfl, hparts⟩ := exists_structure hg hbody
  refine ((feeds_leading node h).append fun c' hc' => ?_).append fun c' hc' =>
    (fits_kind hkind hparts).feeds hc'
  have hheading : ("export type " ++ declaredName node ++ " = ").toList =
      "export type ".toList ++ (declaredName node).toList ++ [' '] ++ ['='] ++ [' '] := by
    simp [String.toList_append]
  have hflat : Flat ("export type " ++ declaredName node ++ " = ").toList := by
    rw [String.toList_append, String.toList_append]
    exact (Flat.append (by decide) (flat_declaredName node)).append (by decide)
  have hfront : Front c'.state
      ("export type ".toList ++ (declaredName node).toList ++ [' '] ++ ['=']) true := by
    refine ⟨⟨'e', _, rfl, rfl, by decide⟩, ⟨_, '=', rfl, rfl⟩, fun more => ?_⟩
    rw [lineIsAlias_of_outermost hc'.brackets, List.append_assoc, List.append_assoc,
      List.append_assoc]
    rfl
  refine (feeds_heading hc' hflat ⟨[' '], hheading.symm⟩ hfront fun more => ?_).mono
    fun c'' hc'' => ⟨hc''.2, ?_⟩
  · rw [List.append_assoc, List.append_assoc, List.append_assoc]
    rfl
  · rw [hc''.1, hheading]
    exact (closed_concat rfl rfl _).space

theorem word_superName {id : NodeId} {path : String} {index : Nat} {name : String}
    (h : superName g path id index = .ok name) : Word name.toList := by
  obtain ⟨node, -, h⟩ := Loading.ok_of_bind h
  split at h
  · obtain rfl := Except.ok.inj h
    exact word_sanitize _
  · cases h

theorem feeds_interface (hg : WordyGraph g) {id : NodeId} {node : Node} {path : String}
    {m : Marked} {members : List InterfaceMember} {supers : List NodeId}
    (hkind : node.kind = .interface members supers)
    (hm : interfaceMarked g id node supers path = .ok m)
    (h : Fresh style before false c [] a) : Feeds style c m fun c' =>
      Within style before c' [] false ∧ Closed c'.line := by
  obtain ⟨names, hnames, hm⟩ := Loading.ok_of_bind hm
  obtain ⟨body, hbody, hm⟩ := Loading.ok_of_bind hm
  obtain rfl := Except.ok.inj hm
  obtain ⟨parts, rfl, hparts⟩ := exists_structure hg hbody
  rw [hkind]
  refine ((feeds_leading node h).append fun c' hc' => ?_).append fun c' hc' =>
    shuts_interface members supers hparts style before c' [] false hc'
  generalize hclause : (if names.isEmpty then "" else
    "extends " ++ String.intercalate ", " names ++ " ") = clause
  have hwords : ∀ name ∈ names, Flat name.toList := by
    intro name hname
    obtain ⟨p, -, hp⟩ := exists_of_mapM hnames hname
    exact (word_superName hp).flat
  have hclauseFlat : Flat clause.toList := by
    rw [← hclause]
    split
    · nofun
    · rw [String.toList_append, String.toList_append]
      exact (Flat.append (by decide) (flat_intercalate (by decide) hwords)).append (by decide)
  have hheading : ("export interface " ++ declaredName node ++ " " ++ clause).toList =
      "export interface".toList ++ (' ' :: (declaredName node).toList ++ " ".toList ++
        clause.toList) := by
    simp [String.toList_append]
  have hflat : Flat ("export interface " ++ declaredName node ++ " " ++ clause).toList := by
    rw [String.toList_append, String.toList_append, String.toList_append]
    exact ((Flat.append (by decide) (flat_declaredName node)).append (by decide)).append
      hclauseFlat
  have hfront : Front c'.state "export interface".toList false := by
    refine ⟨⟨'e', _, rfl, rfl, by decide⟩, ⟨"export interfac".toList, 'e', rfl, rfl⟩,
      fun more => ?_⟩
    rw [lineIsAlias_of_outermost hc'.brackets]
    rfl
  exact (feeds_heading hc' hflat ⟨_, hheading.symm⟩ hfront fun more => rfl).mono
    fun c'' hc'' => hc''.2

/-- Members of an enum on lines of their own. -/
theorem feeds_enumMembers {ms : List Marked} (hms : ∀ m ∈ ms, ∀ c : Cursor,
      Fresh style before false c [.enum] false → Feeds style c m fun c' =>
        Within style before c' [.enum] false ∧ Closed c'.line)
    (h : Fresh style before false c [.enum] false) :
    Feeds style c ((plain "," ++ newline (some .enumMember)).intercalate ms ++
      newline (some .enumMember)) fun c' => Fresh style before false c' [.enum] false := by
  induction ms generalizing c with
  | nil => exact h.feeds_blank _
  | cons m rest ih =>
      have hm := hms m List.mem_cons_self c h
      cases rest with
      | nil =>
          rw [List.intercalate_singleton]
          exact hm.append fun c' hc' => hc'.1.feeds_newline
            (fun stack hstack => needsSemicolon_of_closed hc'.2 hstack) fun _ =>
              hc'.2.not_semicolon
      | cons n more =>
          rw [List.intercalate_cons_cons, List.append_assoc]
          refine (hm.append fun c' hc' => ?_).append fun c' hc' =>
            ih (fun m hm => hms m (List.mem_cons_of_mem _ hm)) hc'
          have hcomma : Flat ",".toList := by decide
          refine (hc'.1.feeds_plain hcomma.balanced.line Iff.rfl fun number head hB =>
            hcomma.balanced.reads number head _ hB).append fun c'' hc'' => ?_
          have hlast : (trim c''.line).getLast? = some ',' := by
            rw [hc''.1, show ",".toList = [','] from rfl, Text.trim_concat rfl,
              List.getLast?_concat]
          refine hc''.2.feeds_newline (fun stack _ => needsSemicolon_of_open hlast rfl stack)
            fun _ => ?_
          rw [hlast]
          decide

/-- The line that opens an enum. -/
theorem feeds_enumHeading (node : Node) (h : Fresh style before false c [] a) :
    Feeds style c (plain ("export " ++ (if options.enableConstEnums then "const " else "") ++
      "enum " ++ declaredName node ++ " \x7b") ++ newline none) fun c' =>
        Fresh style before false c' [.enum] false := by
  obtain ⟨init, hheading, hflat, hhead, halias⟩ : ∃ init : List Char,
      ("export " ++ (if options.enableConstEnums then "const " else "") ++ "enum " ++
        declaredName node ++ " \x7b").toList = 'e' :: init ++ ['{'] ∧ Flat ('e' :: init) ∧
      isEnumHead ('e' :: init ++ ['{']) = true ∧ ∀ more,
        (startsWith "export type " ('e' :: init ++ ['{'] ++ more) ||
          startsWith "type " ('e' :: init ++ ['{'] ++ more)) = false := by
    have hname := flat_declaredName node
    cases options.enableConstEnums with
    | true =>
        have hword : Flat "export const enum ".toList := by decide
        refine ⟨"xport const enum ".toList ++ (declaredName node).toList ++ [' '], ?_,
          (hword.append hname).append (by decide), rfl, fun more => rfl⟩
        simp [String.toList_append]
    | false =>
        have hword : Flat "export enum ".toList := by decide
        refine ⟨"xport enum ".toList ++ (declaredName node).toList ++ [' '], ?_,
          (hword.append hname).append (by decide), rfl, fun more => rfl⟩
        simp [String.toList_append]
  refine feeds_enumHead h hheading hflat ?_ ?_
  · rw [hheading]
    refine ⟨⟨'e', _, rfl, rfl, by decide⟩, ⟨_, '{', rfl, rfl⟩, fun more => ?_⟩
    rw [lineIsAlias_of_outermost h.brackets]
    exact halias more
  · rw [hheading, Text.trim_of_ends rfl rfl]
    exact hhead

theorem feeds_enum (hg : WordyGraph g) {id : NodeId} {node : Node} {path : String}
    {m : Marked} {members : List EnumMember}
    (hm : enumMarked g options id node members path = .ok m)
    (h : Fresh style before false c [] a) : Feeds style c m fun c' =>
      Within style before c' [] false ∧ Closed c'.line := by
  obtain ⟨lines, hlines, hm⟩ := Loading.ok_of_bind hm
  obtain rfl := Except.ok.inj hm
  have hmembers : ∀ m ∈ lines, ∀ c : Cursor, Fresh style before false c [.enum] false →
      Feeds style c m fun c' => Within style before c' [.enum] false ∧ Closed c'.line := by
    intro m hm c hc
    obtain ⟨member, -, hmember⟩ := exists_of_mapM hlines hm
    obtain ⟨value, hvalue, hmember⟩ := Loading.ok_of_bind hmember
    obtain rfl := Except.ok.inj hmember
    exact (feeds_key member.key [' '] '=' hc rfl (by decide) (by decide)
      (.inl List.mem_cons_self)).append fun c' hc' => (fits_expression hg hvalue).feeds hc'
  have hwhole : ∀ heading : String, leadingMarked node ++ plain heading ++ newline none ++
      (plain "," ++ newline (some .enumMember)).intercalate lines ++ newline (some .enumMember) ++
        plain "\x7d" = leadingMarked node ++ (plain heading ++ newline none) ++
      ((plain "," ++ newline (some .enumMember)).intercalate lines ++
        newline (some .enumMember)) ++ plain "\x7d" := fun heading => by
    simp only [List.append_assoc]
  rw [hwhole]
  exact (((feeds_leading node h).append fun c' => feeds_enumHeading node).append fun c' =>
    feeds_enumMembers hmembers).append fun c' => feeds_brace rfl

/-- A declaration takes a layout from the outermost level to the outermost level. -/
theorem lays_declaration (hg : WordyGraph g) {pass : Pass} {id : NodeId} {node : Node}
    {path : String} {m : Marked} (hn : g.get? id = some node) (hpass : node.kind.pass = pass)
    (hm : pass.declarationMarked options g id node path = .ok m) :
    Lays m.text (m.lines (some pass.ending)) := by
  refine lays_of_feeds fun style before c a hc => ?_
  cases pass with
  | aliases => exact feeds_alias hg (hg id node hn) hm hc
  | interfaces =>
      cases hkind : node.kind with
      | interface members supers =>
          simp only [Pass.declarationMarked, hkind] at hm
          exact feeds_interface hg hkind hm hc
      | _ => simp [hkind, Kind.pass] at hpass
  | enums =>
      cases hkind : node.kind with
      | enum members =>
          simp only [Pass.declarationMarked, hkind] at hm
          exact feeds_enum hg hm hc
      | _ => simp [hkind, Kind.pass] at hpass

/-! ## All declarations -/

/-- The section of a pass has the lines of its declarations. -/
theorem lays_section (hg : WordyGraph g) {pass : Pass} {out : String}
    (h : collect g (pass.plan g options) (pass.declaration options g) = .ok out) :
    ∃ ls, pass.lines options g = .ok ls ∧ Lays out.toList ls := by
  obtain ⟨texts, hwalk, h⟩ := Loading.ok_of_bind h
  obtain rfl := Except.ok.inj h
  have htexts : ((pass.declared g options).mapM fun d =>
      pass.declaration options g d.1 d.2.1 d.2.2) = .ok texts := mapM_declared_of_walk hwalk
  rw [← map_mapM fun d _ => written_declaration pass d.1 d.2.1 d.2.2] at htexts
  cases hms : (pass.declared g options).mapM fun d =>
      pass.declarationMarked options g d.1 d.2.1 d.2.2 with
  | error e => rw [hms] at htexts; cases htexts
  | ok ms =>
      rw [hms] at htexts
      obtain rfl := Except.ok.inj htexts
      refine ⟨ms.flatMap (·.lines (some pass.ending)), by rw [Pass.lines, hms]; rfl, ?_⟩
      have hlays : ∀ p ∈ ms.map fun m => (Marked.written m, Marked.lines (some pass.ending) m),
          Lays p.1.toList p.2 := by
        intro p hp
        obtain ⟨m, hm, rfl⟩ := List.mem_map.1 hp
        obtain ⟨d, hd, hmarked⟩ := exists_of_mapM hms hm
        obtain ⟨hn, hpass, -⟩ := Pass.of_mem_declared hd
        rw [Marked.written, String.toList_ofList]
        exact lays_declaration hg hn hpass hmarked
      have hwhole := lays_intercalate Lays.lines hlays
      rw [List.map_map, List.flatMap_map] at hwhole
      exact hwhole

/-- Sections without text are left out, and have no lines. -/
theorem lays_sections (sections : List (String × List MarkedLine))
    (h : ∀ p ∈ sections, Lays p.1.toList p.2) :
    Lays (String.intercalate "\n\n" ((sections.map (·.1)).filter (· != ""))).toList
      (sections.flatMap (·.2)) := by
  have hlines : (sections.filter fun p => p.1 != "").flatMap (·.2) = sections.flatMap (·.2) := by
    induction sections with
    | nil => rfl
    | cons p rest ih =>
        have ih := ih fun q hq => h q (List.mem_cons_of_mem _ hq)
        rw [List.filter_cons, List.flatMap_cons]
        split
        · rw [List.flatMap_cons, ih]
        · rename_i hempty
          have hp := h p List.mem_cons_self
          have htext : p.1 = "" := by simpa using hempty
          rw [htext] at hp
          rw [hp.eq_nil, List.nil_append, ih]
  rw [List.filter_map, ← hlines]
  exact lays_intercalate Lays.paragraphs fun p hp => h p (List.mem_filter.1 hp).1

/-- The layout takes the declarations of every type graph without custom types whose references are
words, in every style. Where the style asks for semicolons, the line that completes a member of an
interface or a type alias, which has none yet, ends in one, and no other line gets one. No blanks
stand at the ends of lines. -/
theorem exists_format_of_text {out : String} (h : text options g = .ok out)
    (hbanner : options.bannerComment = "") (hg : WordyGraph g) :
    ∃ ls, lines options g = .ok ls ∧ content out.toList = ls.map (·.text) ∧
      (∀ l ∈ ls, l.ends ≠ none → l.text.getLast? ≠ some ';') ∧
      ∀ style, ∃ formatted, Layout.format style out = .ok formatted ∧
        (content formatted.toList = ls.map fun l =>
          if style.semi && l.ends.any Ending.terminated then l.text ++ [';'] else l.text) ∧
        ∀ line ∈ pieces (· == '\n') formatted.toList, Tight line := by
  obtain ⟨a, ha, h⟩ := Loading.ok_of_bind h
  obtain ⟨i, hi, h⟩ := Loading.ok_of_bind h
  obtain ⟨e, he, h⟩ := Loading.ok_of_bind h
  obtain rfl := Except.ok.inj h
  obtain ⟨las, hlas, hlaysAliases⟩ := @lays_section g options hg .aliases a ha
  obtain ⟨lis, hlis, hlaysInterfaces⟩ := @lays_section g options hg .interfaces i hi
  obtain ⟨les, hles, hlaysEnums⟩ := @lays_section g options hg .enums e he
  have hlays : Lays (String.intercalate "\n\n" ([options.bannerComment, a, i, e].filter
      (· != ""))).toList (las ++ lis ++ les) := by
    have hthree := lays_sections [("", []), (a, las), (i, lis), (e, les)] (by
      intro p hp
      simp only [List.mem_cons, List.not_mem_nil, or_false] at hp
      rcases hp with rfl | rfl | rfl | rfl
      · exact lays_nil
      · exact hlaysAliases
      · exact hlaysInterfaces
      · exact hlaysEnums)
    rw [hbanner]
    simpa using hthree
  refine ⟨las ++ lis ++ les, by rw [lines, hlas, hlis, hles]; rfl, ?_, hlays.opens,
    hlays.exists_format (String.toList_append ..)⟩
  rw [String.toList_append, show "\n".toList = ['\n'] from rfl, Text.content_append_newline]
  exact hlays.content

/-- An interface with a member on several lines, and an enum. -/
def nestedGraph : TypeGraph where
  nodes := #[
    some ⟨.interface [⟨"a\"\x7b", 1, false, false, false⟩] [], some "Root", none, none⟩,
    some ⟨.union [2, 3], none, some "*/", none⟩,
    some ⟨.interface [⟨"b", 4, true, false, false⟩] [], none, none, none⟩,
    some ⟨.literal (.string "\x7d;"), none, none, none⟩,
    some ⟨.enum [⟨"c", 3⟩], some "Kind", none, none⟩]

theorem wordyGraph_nestedGraph : WordyGraph nestedGraph := by
  intro id node h
  have hmem : some node ∈ nestedGraph.nodes.toList := by
    rw [TypeGraph.get?, Option.join_eq_some_iff] at h
    exact Array.mem_toList_iff.2 (Array.mem_of_getElem? h)
  simp only [nestedGraph, List.mem_cons, List.not_mem_nil, or_false, Option.some.injEq] at hmem
  rcases hmem with rfl | rfl | rfl | rfl | rfl <;> trivial

/-- The text of `nestedGraph`: a key with a quote and a brace, a description with an end mark, and a
literal with a brace and a semicolon. -/
def nestedText : String :=
  "export interface Root \x7b\n" ++
  "/**\n" ++
  " * *\\/\n" ++
  " */\n" ++
  "\"a\\\"\x7b\"?: (\x7b\n" ++
  "b: Kind\n" ++
  "\x7d | \"\x7d;\")\n" ++
  "\x7d\n" ++
  "\n" ++
  "export const enum Kind \x7b\n" ++
  "c = \"\x7d;\"\n" ++
  "\x7d\n"

theorem text_nestedGraph : text { bannerComment := "" } nestedGraph = .ok nestedText := by
  cbv

theorem exists_format_of_text_nestedGraph :
    text { bannerComment := "" } nestedGraph = .ok nestedText ∧ WordyGraph nestedGraph ∧
    ∃ ls, lines { bannerComment := "" } nestedGraph = .ok ls ∧
      content nestedText.toList = ls.map (·.text) ∧
      (∀ l ∈ ls, l.ends ≠ none → l.text.getLast? ≠ some ';') ∧
      ∀ style, ∃ formatted, Layout.format style nestedText = .ok formatted ∧
        (content formatted.toList = ls.map fun l =>
          if style.semi && l.ends.any Ending.terminated then l.text ++ [';'] else l.text) ∧
        ∀ line ∈ pieces (· == '\n') formatted.toList, Tight line :=
  ⟨text_nestedGraph, wordyGraph_nestedGraph,
    exists_format_of_text text_nestedGraph rfl wordyGraph_nestedGraph⟩

end Typewright.Declaration
