import Mathlib.Data.List.DropRight
import Typewright.Proofs.Pointer
import Typewright.Text.Blank

/-!
# Lines that are not blank

`Text.content` lists the lines of a text that are not blank, without the blanks around them. It is
what a text says, whatever its layout: the content of texts on lines of their own is that of the
texts one after the other.
-/

namespace Typewright.Text

/-- What is said of the characters of a list is decided for these characters, not for all. -/
instance (priority := 2000) decidableForallMem (p : Char → Prop) [DecidablePred p] (cs : List Char) :
    Decidable (∀ c ∈ cs, p c) :=
  List.decidableBAll p cs

/-! ## Blanks at the ends of a line -/

theorem trim_eq (cs : List Char) : trim cs = (cs.dropWhile isBlank).rdropWhile isBlank := rfl

@[simp] theorem trim_nil : trim [] = [] := rfl

/-- Blanks at the end of a text are taken off its end. -/
theorem rdropWhile_append_blank {cs ds : List Char} (h : ∀ d ∈ ds, isBlank d = true) :
    (cs ++ ds).rdropWhile isBlank = cs.rdropWhile isBlank := by
  rw [List.rdropWhile, List.reverse_append, List.dropWhile_append_of_pos fun d hd =>
    h d (List.mem_reverse.1 hd)]
  rfl

/-- Nothing in front of what is not blank is taken off the end of a text. -/
theorem rdropWhile_append_of_not {cs ds : List Char} (h : ¬ ∀ d ∈ ds, isBlank d = true) :
    (cs ++ ds).rdropWhile isBlank = cs ++ ds.rdropWhile isBlank := by
  have hne : ¬ (ds.reverse.dropWhile isBlank).isEmpty = true := fun hempty =>
    h fun d hd => List.dropWhile_eq_nil_iff.1 (List.isEmpty_iff.1 hempty) d (List.mem_reverse.2 hd)
  rw [List.rdropWhile, List.reverse_append, List.dropWhile_append, if_neg hne, List.reverse_append,
    List.reverse_reverse]
  rfl

theorem trim_append_of_blank {cs ds : List Char} (h : ∀ d ∈ ds, isBlank d = true) :
    trim (cs ++ ds) = trim cs := by
  rw [trim_eq, trim_eq, List.dropWhile_append]
  split
  · rename_i hall
    rw [List.isEmpty_iff.1 hall, List.dropWhile_eq_nil_iff.2 h]
  · exact rdropWhile_append_blank h

theorem trim_append_blank {cs ds : List Char} (h : ∀ d ∈ ds, isBlank d = true) :
    trim (ds ++ cs) = trim cs := by
  rw [trim_eq, List.dropWhile_append_of_pos h, ← trim_eq]

theorem prefix_dropWhile (cs : List Char) : trim cs <+: cs.dropWhile isBlank :=
  List.rdropWhile_prefix _ _

theorem trim_trim (cs : List Char) : trim (trim cs) = trim cs := by
  have hprefix := prefix_dropWhile cs
  have hfirst : (trim cs).dropWhile isBlank = trim cs := by
    refine List.dropWhile_eq_self_iff.2 fun hlen => ?_
    have hhead := List.head?_dropWhile_not isBlank cs
    obtain ⟨rest, hrest⟩ := hprefix
    rw [← hrest, List.head?_append_of_ne_nil _ (List.length_pos_iff.1 hlen)] at hhead
    rw [List.head?_eq_getElem?, List.getElem?_eq_getElem hlen] at hhead
    simpa using hhead
  rw [trim_eq (trim cs), hfirst, trim_eq, List.rdropWhile_idempotent]

theorem isBlank_of_trim {c : Char} {cs ds : List Char} (h : trim ds = c :: cs) :
    isBlank c = false := by
  obtain ⟨rest, hrest⟩ := prefix_dropWhile ds
  have hhead := List.head?_dropWhile_not isBlank ds
  rw [← hrest, h] at hhead
  exact hhead

theorem trim_of_ends {c d : Char} {cs : List Char} (hc : isBlank c = false)
    (hd : isBlank d = false) : trim (c :: cs ++ [d]) = c :: cs ++ [d] := by
  rw [trim_eq, List.cons_append, List.dropWhile_cons_of_neg (by simp [hc]), ← List.cons_append,
    List.rdropWhile_concat_neg _ _ _ (by simp [hd])]

/-- What is taken off the end of a text that starts with no blank. -/
theorem exists_trim_append {cs : List Char} (h : ∀ c ∈ cs.head?, isBlank c = false) :
    ∃ blanks, cs = trim cs ++ blanks ∧ ∀ c ∈ blanks, isBlank c = true := by
  have hfirst : cs.dropWhile isBlank = cs := by
    cases cs with
    | nil => rfl
    | cons c rest => exact List.dropWhile_cons_of_neg (by simp [h c rfl])
  rw [trim_eq, hfirst]
  exact ⟨_, List.rdropWhile_append_rtakeWhile.symm, fun c hc => List.mem_rtakeWhile_imp hc⟩

/-- Only blanks in front are taken off a text that ends in no blank. -/
theorem trim_concat {d : Char} (hd : isBlank d = false) (cs : List Char) :
    trim (cs ++ [d]) = cs.dropWhile isBlank ++ [d] := by
  have hfirst : (cs ++ [d]).dropWhile isBlank = cs.dropWhile isBlank ++ [d] := by
    rw [List.dropWhile_append, List.dropWhile_cons_of_neg (by simp [hd])]
    split
    · rename_i hempty
      rw [List.isEmpty_iff.1 hempty, List.nil_append]
    · rfl
  rw [trim_eq, hfirst, List.rdropWhile_concat_neg _ _ _ (by simp [hd])]

/-- A text that ends in no blank. -/
def Tight (cs : List Char) : Prop := ∀ d ∈ cs.getLast?, isBlank d = false

theorem tight_nil : Tight [] := fun _ hd => by cases hd

theorem tight_trim (cs : List Char) : Tight (trim cs) := by
  intro d hd
  obtain ⟨init, hinit⟩ := List.getLast?_eq_some_iff.1 hd
  have hne : trim cs ≠ [] := hinit ▸ List.append_ne_nil_of_right_ne_nil _ (List.cons_ne_nil _ _)
  have hlast := List.rdropWhile_last_not isBlank (cs.dropWhile isBlank) hne
  have heq : (trim cs).getLast hne = d := by
    rw [List.getLast?_eq_some_getLast hne] at hd
    exact Option.some.inj hd
  exact Bool.eq_false_iff.2 (heq ▸ hlast)

theorem Tight.append {cs ds : List Char} (h : Tight ds) (hne : ds ≠ []) : Tight (cs ++ ds) := by
  rwa [Tight, List.getLast?_append_of_ne_nil _ hne]

/-- Nothing is taken off a text that neither starts nor ends with a blank. -/
theorem trim_eq_self {cs : List Char} (h : ∀ c ∈ cs.head?, isBlank c = false) (htight : Tight cs) :
    trim cs = cs := by
  obtain ⟨blanks, heq, hblanks⟩ := exists_trim_append h
  cases hlast : blanks.getLast? with
  | none =>
      rw [List.getLast?_eq_none_iff.1 hlast, List.append_nil] at heq
      exact heq.symm
  | some d =>
      obtain ⟨init, rfl⟩ := List.getLast?_eq_some_iff.1 hlast
      have hd : isBlank d = true := hblanks d (by simp)
      rw [htight d (by rw [heq, ← List.append_assoc, List.getLast?_concat]; rfl)] at hd
      cases hd

theorem mem_of_mem_trim {c : Char} {cs : List Char} (h : c ∈ trim cs) : c ∈ cs :=
  (List.dropWhile_suffix _).subset ((prefix_dropWhile cs).subset h)

/-! ## Content -/

/-- The lines that are not blank, without the blanks around them. -/
def visible (ls : List (List Char)) : List (List Char) :=
  (ls.map trim).filter fun line => !line.isEmpty

@[simp] theorem visible_nil : visible [] = [] := rfl

theorem visible_append (ls ms : List (List Char)) :
    visible (ls ++ ms) = visible ls ++ visible ms := by
  simp [visible]

theorem visible_singleton {line : List Char} (h : trim line ≠ []) :
    visible [line] = [trim line] := by
  simp [visible, h]

theorem visible_blank {line : List Char} (h : trim line = []) : visible [line] = [] := by
  simp [visible, h]

/-- What a text says: its lines that are not blank. -/
def content (cs : List Char) : List (List Char) := visible (lines cs)

theorem trim_chomp (line : List Char) : trim (chomp line) = trim line := by
  unfold chomp
  split
  · rename_i hlast
    obtain ⟨init, rfl⟩ := List.getLast?_eq_some_iff.1 (eq_of_beq hlast)
    rw [List.dropLast_concat, trim_append_of_blank fun d hd => by
      rw [List.mem_singleton.1 hd]; rfl]
  · rfl

theorem map_trim_chomp (ls : List (List Char)) : (ls.map chomp).map trim = ls.map trim := by
  rw [List.map_map]
  exact List.map_congr_left fun l _ => trim_chomp l

/-- What is told apart as lines makes no difference to the content. -/
theorem content_eq (cs : List Char) : content cs = visible (pieces (· == '\n') cs) := by
  have hne := Pointer.pieces_ne_nil (· == '\n') cs
  obtain ⟨init, last, hpieces⟩ :
      ∃ init last, pieces (· == '\n') cs = init ++ [last] := by
    exact ⟨_, _, (List.dropLast_append_getLast hne).symm⟩
  simp only [content, lines, visible, hpieces, List.getLast?_concat, List.dropLast_concat]
  split
  · rename_i hlast
    obtain rfl : last = [] := Option.some.inj (eq_of_beq hlast)
    simp [map_trim_chomp, -List.map_map]
  · simp [map_trim_chomp, -List.map_map]

theorem not_of_mem_pieces {p : Char → Bool} {cs piece : List Char} (h : piece ∈ pieces p cs) :
    ∀ c ∈ piece, p c = false := by
  induction cs generalizing piece with
  | nil => simp_all [pieces]
  | cons c rest ih =>
      rw [pieces] at h
      split at h
      · rcases List.mem_cons.1 h with rfl | h
        · exact fun c hc => absurd hc List.not_mem_nil
        · exact ih h
      · rename_i hc
        split at h
        · simp_all
        · rename_i first more hpieces
          rcases List.mem_cons.1 h with rfl | h
          · intro d hd
            rcases List.mem_cons.1 hd with rfl | hd
            · simpa using hc
            · exact ih (hpieces ▸ List.mem_cons_self) d hd
          · exact ih (hpieces ▸ List.mem_cons_of_mem _ h)

theorem not_mem_of_mem_lines {cs line : List Char} (h : line ∈ lines cs) : '\n' ∉ line := by
  have hpiece : ∀ piece ∈ pieces (· == '\n') cs, '\n' ∉ piece := fun piece hp hmem => by
    simpa using not_of_mem_pieces hp _ hmem
  have hchomp : ∀ piece ∈ (pieces (· == '\n') cs).dropLast.map chomp, '\n' ∉ piece := by
    intro piece hp
    obtain ⟨whole, hwhole, rfl⟩ := List.mem_map.1 hp
    have hfree := hpiece whole (List.dropLast_subset _ hwhole)
    unfold chomp
    split
    · exact fun hmem => hfree (List.dropLast_subset _ hmem)
    · exact hfree
  simp only [lines] at h
  split at h
  · exact hchomp line h
  · rcases List.mem_append.1 h with h | h
    · exact hchomp line h
    · exact hpiece line (List.mem_of_getLast? (Option.mem_toList.1 h))

theorem content_append (cs ds : List Char) :
    content (cs ++ '\n' :: ds) = content cs ++ content ds := by
  have hpieces := Pointer.pieces_append_cons (p := (· == '\n')) (c := '\n') rfl cs ds
  rw [content_eq, content_eq, content_eq, hpieces, visible_append]

theorem pieces_line {cs : List Char} (h : '\n' ∉ cs) : pieces (· == '\n') cs = [cs] :=
  Pointer.pieces_of_forall_not fun _ hc => beq_false_of_ne fun heq => h (heq ▸ hc)

theorem content_line {cs : List Char} (h : '\n' ∉ cs) :
    content cs = visible [cs] := by
  rw [content_eq, pieces_line h]

@[simp] theorem content_nil : content [] = [] := rfl

theorem content_append_newline (cs : List Char) : content (cs ++ ['\n']) = content cs := by
  rw [content_append, content_nil, List.append_nil]

theorem join_cons (separator : List Char) {l : List Char} {ls : List (List Char)} (hne : ls ≠ []) :
    join separator (l :: ls) = l ++ separator ++ join separator ls :=
  join.eq_3 separator l ls hne

/-- Lines that are joined are told apart again. -/
theorem pieces_join {ls : List (List Char)} (hne : ls ≠ []) (h : ∀ l ∈ ls, '\n' ∉ l) :
    pieces (· == '\n') (join ['\n'] ls) = ls := by
  induction ls with
  | nil => exact absurd rfl hne
  | cons l rest ih =>
      have hl := pieces_line (h l List.mem_cons_self)
      cases rest with
      | nil => exact hl
      | cons m more =>
          have ih := ih (List.cons_ne_nil m more) fun l' hl' => h l' (List.mem_cons_of_mem _ hl')
          rw [join_cons _ (List.cons_ne_nil m more), List.append_assoc, List.singleton_append,
            Pointer.pieces_append_cons rfl, hl, ih, List.singleton_append]

/-- They are told apart as lines up to carriage returns in front of line feeds. -/
theorem lines_join {ls : List (List Char)} {last : List Char} (hlast : last ≠ [])
    (h : ∀ l ∈ ls ++ [last], '\n' ∉ l) :
    lines (join ['\n'] (ls ++ [last])) = ls.map chomp ++ [last] := by
  have hne : (some last == some []) = false := by simpa using hlast
  simp only [lines, pieces_join (by simp) h, List.getLast?_concat, List.dropLast_concat, hne,
    Bool.false_eq_true, if_false, Option.toList_some]

/-- The lines of a text that ends in a line feed. -/
theorem lines_append_newline (cs : List Char) :
    lines (cs ++ ['\n']) = (pieces (· == '\n') cs).map chomp := by
  have hpieces : pieces (· == '\n') (cs ++ ['\n']) = pieces (· == '\n') cs ++ [[]] := by
    rw [Pointer.pieces_append_cons rfl]
    rfl
  simp only [lines, hpieces, List.getLast?_concat, List.dropLast_concat, beq_self_eq_true, if_true]

theorem exists_join_cons (separator l : List Char) (ls : List (List Char)) :
    ∃ rest, join separator (l :: ls) = l ++ rest := by
  cases ls with
  | nil => exact ⟨[], (List.append_nil l).symm⟩
  | cons m more => exact ⟨separator ++ join separator (m :: more), List.append_assoc ..⟩

theorem join_eq (separator : List Char) (ls : List (List Char)) :
    join separator ls = separator.intercalate ls := by
  induction ls with
  | nil => rfl
  | cons l rest ih =>
      cases rest with
      | nil => simp [join]
      | cons m more =>
          rw [join_cons _ (List.cons_ne_nil m more), ih, List.intercalate_cons_cons]

theorem toList_intercalate (separator : String) (texts : List String) :
    (String.intercalate separator texts).toList = join separator.toList (texts.map String.toList) := by
  rw [join_eq, String.toList_intercalate]

theorem join_append (separator : List Char) {ls ms : List (List Char)} (hls : ls ≠ [])
    (hms : ms ≠ []) : join separator (ls ++ ms) = join separator ls ++ separator ++ join separator ms := by
  induction ls with
  | nil => exact absurd rfl hls
  | cons l rest ih =>
      cases rest with
      | nil => rw [List.singleton_append, join_cons _ hms]; rfl
      | cons m more =>
          rw [List.cons_append, join_cons _ (by simp), ih (List.cons_ne_nil m more),
            join_cons _ (List.cons_ne_nil m more)]
          simp only [List.append_assoc]

theorem join_concat (separator : List Char) {ls : List (List Char)} (hne : ls ≠ []) (last : List Char) :
    join separator (ls ++ [last]) = join separator ls ++ separator ++ last :=
  join_append separator hne (List.cons_ne_nil last [])

/-- Empty pieces at the ends leave only their separators. -/
theorem join_framed (separator : List Char) {ls : List (List Char)} (hne : ls ≠ []) :
    join separator ([] :: ls ++ [[]]) = separator ++ join separator ls ++ separator := by
  rw [join_concat _ (List.cons_ne_nil _ _), join_cons _ hne, List.nil_append, List.append_nil]

/-- Pieces that are joined twice are joined. -/
theorem join_flatten (separator : List Char) {groups : List (List (List Char))}
    (h : ∀ ls ∈ groups, ls ≠ []) :
    join separator groups.flatten = join separator (groups.map (join separator)) := by
  induction groups with
  | nil => rfl
  | cons ls rest ih =>
      have ih := ih fun ls hls => h ls (List.mem_cons_of_mem _ hls)
      cases rest with
      | nil => simp [join]
      | cons ms more =>
          have hne : (ms :: more).flatten ≠ [] := by
            rw [List.flatten_cons]
            exact List.append_ne_nil_of_left_ne_nil (h ms (by simp)) _
          rw [List.flatten_cons, List.map_cons, join_cons _ (by simp), ← ih,
            join_append _ (h ls List.mem_cons_self) hne]

theorem content_join {ls : List (List Char)} (h : ∀ l ∈ ls, '\n' ∉ l) :
    content (join ['\n'] ls) = visible ls := by
  by_cases hne : ls = []
  · rw [hne]
    rfl
  · rw [content_eq, pieces_join hne h]

/-- The content of texts with line feeds between them is that of the texts. -/
theorem content_intercalate {separator : String}
    (h : ∀ cs ds, content (cs ++ separator.toList ++ ds) = content cs ++ content ds)
    (texts : List String) : content (String.intercalate separator texts).toList =
      texts.flatMap fun text => content text.toList := by
  induction texts with
  | nil => rfl
  | cons text rest ih =>
      cases rest with
      | nil => simp
      | cons next more =>
          rw [String.intercalate_cons_cons, String.toList_append, String.toList_append, h, ih]
          rfl

theorem content_lines (texts : List String) : content (String.intercalate "\n" texts).toList =
    texts.flatMap fun text => content text.toList :=
  content_intercalate (fun cs ds => by
    rw [List.append_assoc, show "\n".toList ++ ds = '\n' :: ds from rfl, content_append]) texts

theorem content_paragraphs (texts : List String) :
    content (String.intercalate "\n\n" texts).toList =
      texts.flatMap fun text => content text.toList :=
  content_intercalate (fun cs ds => by
    rw [List.append_assoc, show "\n\n".toList ++ ds = '\n' :: ([] ++ '\n' :: ds) from rfl,
      content_append, content_append, content_nil, List.nil_append]) texts

/-! ## Parts of a text -/

theorem contains_iff {part cs : List Char} : contains part cs = true ↔ part <:+: cs := by
  induction cs with
  | nil => simp [contains]
  | cons c rest ih => simp [contains, ih, List.infix_cons_iff, List.isPrefixOf_iff_prefix]

theorem trim_infix (cs : List Char) : trim cs <:+: cs :=
  (prefix_dropWhile cs).isInfix.trans (List.dropWhile_suffix _).isInfix

theorem infix_of_mem_pieces {p : Char → Bool} {cs piece : List Char} (h : piece ∈ pieces p cs) :
    piece <:+: cs := by
  have hall : ∀ cs : List Char, (∀ first ∈ (pieces p cs).head?, first <+: cs) ∧
      ∀ piece ∈ pieces p cs, piece <:+: cs := by
    intro cs
    induction cs with
    | nil => simp [pieces]
    | cons c rest ih =>
        rw [pieces]
        split
        · refine ⟨by simp, fun piece hp => ?_⟩
          rcases List.mem_cons.1 hp with rfl | hp
          · exact List.nil_infix
          · exact (ih.2 piece hp).trans (List.suffix_cons c rest).isInfix
        · split
          · rename_i hnil
            exact absurd hnil (Pointer.pieces_ne_nil p rest)
          · rename_i first more hpieces
            have hfirst : c :: first <+: c :: rest :=
              List.cons_prefix_cons.2 ⟨rfl, ih.1 first (by rw [hpieces]; rfl)⟩
            refine ⟨fun f hf => Option.some.inj hf ▸ hfirst, fun piece hp => ?_⟩
            rcases List.mem_cons.1 hp with rfl | hp
            · exact hfirst.isInfix
            · exact (ih.2 piece (hpieces ▸ List.mem_cons_of_mem _ hp)).trans
                (List.suffix_cons c rest).isInfix
  exact (hall cs).2 piece h

/-- A line is a part of its text. -/
theorem infix_of_mem_lines {cs line : List Char} (h : line ∈ lines cs) : line <:+: cs := by
  have hchomp : ∀ piece ∈ (pieces (· == '\n') cs).dropLast.map chomp, piece <:+: cs := by
    intro piece hp
    obtain ⟨whole, hwhole, rfl⟩ := List.mem_map.1 hp
    have hpart := infix_of_mem_pieces (List.dropLast_subset _ hwhole)
    unfold chomp
    split
    · exact (List.dropLast_prefix whole).isInfix.trans hpart
    · exact hpart
  simp only [lines] at h
  split at h
  · exact hchomp line h
  · rcases List.mem_append.1 h with h | h
    · exact hchomp line h
    · exact infix_of_mem_pieces (List.mem_of_getLast? (Option.mem_toList.1 h))

/-- What holds no separator stands in front of it or behind it. -/
theorem infix_append_cons {part xs ys : List Char} {c : Char} (hc : c ∉ part)
    (h : part <:+: xs ++ c :: ys) : part <:+: xs ∨ part <:+: ys := by
  obtain ⟨front, rest, h⟩ := h
  rcases List.append_eq_append_iff.1 h with ⟨cut, hxs, -⟩ | ⟨cut, hpart, hcut⟩
  · exact .inl ⟨front, cut, hxs.symm⟩
  · cases cut with
    | nil => exact .inl ⟨front, [], by simpa using hpart⟩
    | cons d cut =>
        obtain ⟨rfl, hys⟩ := List.cons.inj hcut
        rcases List.append_eq_append_iff.1 hpart with ⟨more, -, hmore⟩ | ⟨more, -, hmore⟩
        · exact absurd (by rw [hmore]; simp) hc
        · cases more with
          | nil => exact absurd (show c ∈ [] ++ part from hmore ▸ List.mem_cons_self) hc
          | cons e more =>
              obtain ⟨-, hcut⟩ := List.cons.inj hmore
              exact .inr ⟨more, rest, by rw [hys, hcut]; rfl⟩

theorem infix_join {part : List Char} {c : Char} (hne : part ≠ []) (hc : c ∉ part)
    {ls : List (List Char)} (h : part <:+: join [c] ls) : ∃ l ∈ ls, part <:+: l := by
  induction ls with
  | nil => exact absurd (List.infix_nil.1 h) hne
  | cons l rest ih =>
      cases rest with
      | nil => exact ⟨l, List.mem_cons_self, h⟩
      | cons m more =>
          rw [join_cons _ (List.cons_ne_nil m more), List.append_assoc,
            List.singleton_append] at h
          rcases infix_append_cons hc h with h | h
          · exact ⟨l, List.mem_cons_self, h⟩
          · obtain ⟨l', hl', h⟩ := ih h
            exact ⟨l', List.mem_cons_of_mem _ hl', h⟩

end Typewright.Text
