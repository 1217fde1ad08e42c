import Mathlib.Data.List.Forall2
import Typewright.Proofs.Identifier
import Typewright.Proofs.Json.Text
import Typewright.Proofs.TypeGraph.Basic
import Typewright.TypeGraph.Fingerprint

/-!
# What equal fingerprints show

If the names and texts of a graph have no commas, a fingerprint shows where each of its parts ends.
So two nodes with the same fingerprint have kinds that differ in nothing but the numbers of their
children, and these have the same fingerprints again or the same names. Whatever respects kinds and
names cannot tell such nodes apart (`Likeness.of_fingerprint`, `Congruence.of_fingerprint`).
-/

namespace Typewright

open Json (Code append_inj_of_forall code_of_escapes)

/-! ## Keys -/

theorem number_toDigits (n : Nat) : Unicode.number (Nat.toDigits 16 n) = n := by
  have hdigit : ∀ d < 16, Unicode.number [Nat.digitChar d] = d := by decide
  induction n using Nat.strongRecOn with
  | ind n ih =>
      by_cases hlt : n < 16
      · rw [Nat.toDigits_of_lt_base hlt, hdigit n hlt]
      · have hlast := hdigit (n % 16) (Nat.mod_lt n (by decide))
        have hfront := ih (n / 16) (by omega)
        rw [Nat.toDigits_of_base_le (by decide) (Nat.not_lt.1 hlt)]
        unfold Unicode.number at hlast hfront ⊢
        rw [List.foldl_append, hfront]
        simp only [List.foldl_cons, List.foldl_nil] at hlast ⊢
        omega

theorem ne_brace_of_mem_toDigits (n : Nat) : ∀ c ∈ Nat.toDigits 16 n, c ≠ '}' := by
  have hdigit : ∀ d < 16, Nat.digitChar d ≠ '}' := by decide
  induction n using Nat.strongRecOn with
  | ind n ih =>
      by_cases hlt : n < 16
      · rw [Nat.toDigits_of_lt_base hlt]
        intro c hc
        rw [List.mem_singleton.1 hc]
        exact hdigit n hlt
      · rw [Nat.toDigits_of_base_le (by decide) (Nat.not_lt.1 hlt)]
        simpa [or_imp, forall_and] using
          And.intro (ih (n / 16) (by omega)) (hdigit (n % 16) (Nat.mod_lt n (by decide)))

/-- A letter behind a backslash stands for one character, and none of them is the one in front of a
number. -/
theorem debugLetters_inj {c d letter : Char} (hc : debugLetters.lookup c = some letter)
    (hd : debugLetters.lookup d = some letter) : c = d ∧ letter ≠ 'u' := by
  have hall : ∀ p ∈ debugLetters, (∀ q ∈ debugLetters, p.2 = q.2 → p.1 = q.1) ∧ p.2 ≠ 'u' := by
    decide
  obtain ⟨hinj, hne⟩ := hall _ (mem_of_lookup hc)
  exact ⟨hinj _ (mem_of_lookup hd) rfl, hne⟩

theorem toNat_eq_of_digits {c d : Char}
    (h : Nat.toDigits 16 c.toNat ++ ['}'] <+: Nat.toDigits 16 d.toNat ++ ['}']) : c = d := by
  obtain ⟨rest, hrest⟩ := h
  rw [List.append_assoc, List.singleton_append] at hrest
  obtain ⟨hdigits, -⟩ := append_inj_of_forall (p := (· ≠ '}')) (ne_brace_of_mem_toDigits _)
    (ne_brace_of_mem_toDigits _) (by simp) (by simp) hrest
  have hnat : c.toNat = d.toNat := by
    rw [← number_toDigits c.toNat, hdigits, number_toDigits]
  exact Char.toNat_inj.1 hnat

/-- What is written for a character: a letter behind a backslash, its number or itself. -/
theorem debugChar_cases (c : Char) :
    (∃ letter, debugLetters.lookup c = some letter ∧ debugChar c = ['\\', letter]) ∨
    debugChar c = '\\' :: 'u' :: '\x7b' :: (Nat.toDigits 16 c.toNat ++ ['}']) ∨
    debugChar c = [c] := by
  rw [debugChar]
  split
  next letter h => exact .inl ⟨letter, h, rfl⟩
  next =>
    split
    · exact .inr (.inl rfl)
    · exact .inr (.inr rfl)

theorem code_debugChar : Code debugChar := by
  refine code_of_escapes (fun c => debugChar c ≠ [c]) (by decide) (by decide) (fun c hc => ?_)
    (fun c d hc hd hcd => ?_) fun c hc => not_not.1 hc
  · rcases debugChar_cases c with ⟨letter, -, heq⟩ | heq | heq
    · rw [heq]
      rfl
    · rw [heq]
      rfl
    · exact absurd heq hc
  · -- a letter is never the mark of a number
    rcases debugChar_cases c with ⟨letter, hletter, heqc⟩ | heqc | heq <;>
      rcases debugChar_cases d with ⟨letter', hletter', heqd⟩ | heqd | heq' <;>
      try contradiction
    all_goals simp only [heqc, heqd, List.cons_prefix_cons, true_and] at hcd
    · obtain ⟨rfl, -⟩ := hcd
      exact (debugLetters_inj hletter hletter').1
    · exact absurd hcd.1 (debugLetters_inj hletter hletter).2
    · exact absurd hcd.1.symm (debugLetters_inj hletter' hletter').2
    · exact toNat_eq_of_digits hcd

theorem debugQuote_append_inj {k l : String} {r s : List Char}
    (h : (debugQuote k).toList ++ r = (debugQuote l).toList ++ s) : k = l ∧ r = s := by
  simp only [debugQuote, String.toList_ofList, List.cons_append, List.append_assoc, List.cons.injEq,
    true_and, List.nil_append] at h
  obtain ⟨hk, rfl⟩ := code_debugChar.flatMap_inj h
  exact ⟨String.toList_inj.1 hk, rfl⟩

namespace Kind

/-! ## Lists of parts -/

/-- What may follow a part. -/
def Stops (rest : List Char) : Prop := ∀ c ∈ rest.head?, c = ','

theorem stops_nil : Stops [] := nofun

theorem stops_comma (rest : List Char) : Stops (',' :: rest) := fun _ h => (Option.some.inj h).symm

/-- Texts with commas behind them. -/
def commas {α : Type} (write : α → List Char) (xs : List α) : List Char :=
  xs.flatMap fun x => write x ++ [',']

theorem toList_listed {α : Type} (write : α → String) (xs : List α) :
    (listed (xs.map write)).toList = commas (fun x => (write x).toList) xs := by
  induction xs with
  | nil => rfl
  | cons x rest ih =>
      rw [List.map_cons, commas, List.flatMap_cons, ← commas, ← ih]
      simp [listed, String.toList_append, String.join_cons]

/-- Lists that are written between brackets can be told apart if their items can. -/
theorem listed_append_inj {α β : Type} {write : α → List Char} {write' : β → List Char}
    {R : α → β → Prop} {close : Char} {xs : List α} {ys : List β} {r s : List Char}
    (hx : ∀ x ∈ xs, ∃ c rest, write x = c :: rest ∧ c ≠ close)
    (hy : ∀ y ∈ ys, ∃ c rest, write' y = c :: rest ∧ c ≠ close)
    (hinj : ∀ x ∈ xs, ∀ y ∈ ys, ∀ r s, write x ++ ',' :: r = write' y ++ ',' :: s → R x y ∧ r = s)
    (h : commas write xs ++ close :: r = commas write' ys ++ close :: s) :
    List.Forall₂ R xs ys ∧ r = s := by
  unfold commas at h
  induction xs generalizing ys with
  | nil =>
      cases ys with
      | nil => exact ⟨.nil, (List.cons.inj h).2⟩
      | cons y ys =>
          obtain ⟨c, rest, hc, hne⟩ := hy y List.mem_cons_self
          simp only [List.flatMap_cons, hc, List.flatMap_nil, List.nil_append, List.cons_append,
            List.cons.injEq] at h
          exact absurd h.1.symm hne
  | cons x xs ih =>
      cases ys with
      | nil =>
          obtain ⟨c, rest, hc, hne⟩ := hx x List.mem_cons_self
          simp only [List.flatMap_cons, hc, List.flatMap_nil, List.nil_append, List.cons_append,
            List.cons.injEq] at h
          exact absurd h.1 hne
      | cons y ys =>
          simp only [List.flatMap_cons, List.append_assoc, List.singleton_append] at h
          obtain ⟨hxy, htail⟩ := hinj x List.mem_cons_self y List.mem_cons_self _ _ h
          obtain ⟨hrest, rfl⟩ := ih (fun z hz => hx z (List.mem_cons_of_mem _ hz))
            (fun z hz => hy z (List.mem_cons_of_mem _ hz))
            (fun z hz w hw => hinj z (List.mem_cons_of_mem _ hz) w (List.mem_cons_of_mem _ hw)) htail
          exact ⟨.cons hxy hrest, rfl⟩

/-! ## Kinds that differ in the numbers of their children -/

/-- Values of enums that differ in the number of their node. -/
def ValueAlike (R : NodeId → NodeId → Prop) (m n : EnumMember) : Prop :=
  m.key = n.key ∧ R m.node n.node

/-- Members of interfaces that differ in the number of their type. -/
def MemberAlike (R : NodeId → NodeId → Prop) (m n : InterfaceMember) : Prop :=
  m.key = n.key ∧ m.required = n.required ∧ m.pattern = n.pattern ∧ m.unreachable = n.unreachable ∧
    R m.node n.node

/-- The kinds are the same but for their children, which are related. -/
inductive Alike (R : NodeId → NodeId → Prop) : Kind → Kind → Prop where
  | leaf {k : Kind} (h : k.children = []) : Alike R k k
  | array {a b : NodeId} (h : R a b) : Alike R (.array a) (.array b)
  | tuple {as bs : List NodeId} (h : List.Forall₂ R as bs) : Alike R (.tuple as) (.tuple bs)
  | union {as bs : List NodeId} (h : List.Forall₂ R as bs) : Alike R (.union as) (.union bs)
  | intersection {as bs : List NodeId} (h : List.Forall₂ R as bs) :
      Alike R (.intersection as) (.intersection bs)
  | enum {ms ns : List EnumMember} (h : List.Forall₂ (ValueAlike R) ms ns) :
      Alike R (.enum ms) (.enum ns)
  | interface {ms ns : List InterfaceMember} {ss ts : List NodeId}
      (hm : List.Forall₂ (MemberAlike R) ms ns) (hs : List.Forall₂ R ss ts) :
      Alike R (.interface ms ss) (.interface ns ts)

/-- The texts that a kind holds show where they end: opaque ones are identifiers, and the numbers in
a literal are in the form in which they are read. -/
def Plain : Kind → Prop
  | .customType text | .reference text => Identifier.isBare text.toList = true
  | .literal value => value.Normal
  | _ => True

/-- The texts that a kind holds show where they end: opaque ones have no comma, which stands behind
each part of a fingerprint, and the numbers in a literal are in the form in which they are read. -/
def Delimited : Kind → Prop
  | .customType text | .reference text => ',' ∉ text.toList
  | .literal value => value.Normal
  | _ => True

theorem not_comma_of_isBare {text : String} (h : Identifier.isBare text.toList = true) :
    ',' ∉ text.toList := fun hmem =>
  absurd (Identifier.isPart_of_isBare h ',' hmem) (by decide)

theorem Plain.delimited {kind : Kind} (h : kind.Plain) : kind.Delimited := by
  cases kind with
  | customType => exact not_comma_of_isBare h
  | reference => exact not_comma_of_isBare h
  | literal => exact h
  | _ => trivial

/-- The start of a fingerprint. -/
def tag : Kind → String
  | .any => "any"
  | .boolean => "boolean"
  | .null => "null"
  | .number => "number"
  | .object => "object"
  | .string => "string"
  | .customType _ => "custom:"
  | .reference _ => "ref:"
  | .literal _ => "lit:"
  | .array _ => "array("
  | .tuple _ => "tuple("
  | .union _ => "union("
  | .intersection _ => "intersection("
  | .enum _ => "enum\x7b"
  | .interface _ _ => "interface\x7b"

/-- The starts of all fingerprints. -/
def tags : List String :=
  ["any", "boolean", "null", "number", "object", "string", "custom:", "ref:", "lit:", "array(",
    "tuple(", "union(", "intersection(", "enum\x7b", "interface\x7b"]

theorem tag_mem_tags (kind : Kind) : kind.tag ∈ tags := by
  cases kind <;> simp [tag, tags]

theorem eq_of_tag_le : ∀ a ∈ tags, ∀ b ∈ tags, a.toList <+: b.toList → a = b := by
  decide +kernel

/-- Tags can be told apart. -/
theorem tag_append_inj {k l : Kind} {r s : List Char}
    (h : k.tag.toList ++ r = l.tag.toList ++ s) : k.tag = l.tag ∧ r = s := by
  have hk : k.tag.toList <+: l.tag.toList ++ s := ⟨r, h⟩
  have htag : k.tag = l.tag := by
    rcases List.prefix_or_prefix_of_prefix hk (List.prefix_append _ s) with hkl | hlk
    · exact eq_of_tag_le _ k.tag_mem_tags _ l.tag_mem_tags hkl
    · exact (eq_of_tag_le _ l.tag_mem_tags _ k.tag_mem_tags hlk).symm
  exact ⟨htag, List.append_cancel_left (htag ▸ h)⟩

/-! ## Fingerprints of kinds -/

/-- The key and the flags of a member of an interface. -/
def markChars (m : InterfaceMember) : List Char :=
  (if m.required then [] else ['?']) ++ (if m.pattern then ['~'] else []) ++
    (if m.unreachable then ['!'] else []) ++ [':']

theorem toList_memberMark (m : InterfaceMember) :
    (memberMark m).toList = (debugQuote m.key).toList ++ markChars m := by
  cases hr : m.required <;> cases hp : m.pattern <;> cases hu : m.unreachable <;>
    simp [memberMark, markChars, hr, hp, hu, String.toList_append]

theorem markChars_append_inj {m n : InterfaceMember} {r s : List Char}
    (h : markChars m ++ r = markChars n ++ s) :
    m.required = n.required ∧ m.pattern = n.pattern ∧ m.unreachable = n.unreachable ∧ r = s := by
  revert h
  unfold markChars
  cases m.required <;> cases m.pattern <;> cases m.unreachable <;>
    cases n.required <;> cases n.pattern <;> cases n.unreachable <;> simp

/-- Each member of an interface with the text of its type. -/
theorem zipWith_map_append {α β γ : Type} (f : α → β → γ) (h : α → β) (xs : List α) (ys : List β) :
    List.zipWith f xs (xs.map h ++ ys) = xs.map fun x => f x (h x) := by
  induction xs with
  | nil => simp
  | cons x rest ih => simp [ih]

/-- A value of an enum with its key. -/
def valueChars (F : NodeId → String) (m : EnumMember) : List Char :=
  (debugQuote m.key).toList ++ '=' :: (F m.node).toList

/-- A member of an interface with the text of its type. -/
def memberChars (F : NodeId → String) (m : InterfaceMember) : List Char :=
  (debugQuote m.key).toList ++ (markChars m ++ (F m.node).toList)

/-- What follows the tag of a kind. -/
def tail (F : NodeId → String) : Kind → List Char
  | .customType text | .reference text => text.toList
  | .literal value => value.text.toList
  | .array element => commas (fun c => (F c).toList) [element] ++ [')']
  | .tuple cs | .union cs | .intersection cs => commas (fun c => (F c).toList) cs ++ [')']
  | .enum members => commas (valueChars F) members ++ ['}']
  | .interface members supers =>
    commas (memberChars F) members ++
      '}' :: ("extends(".toList ++ (commas (fun c => (F c).toList) supers ++ [')']))
  | _ => []

theorem toList_fingerprint (F : NodeId → String) (kind : Kind) :
    (kind.fingerprint (kind.children.map F)).toList = kind.tag.toList ++ kind.tail F := by
  cases kind with
  | array element =>
      have hlisted := toList_listed F [element]
      rw [List.map_singleton] at hlisted
      simp [fingerprint, children, tag, tail, String.toList_append, hlisted]
  | tuple cs => simp [fingerprint, children, tag, tail, String.toList_append, toList_listed]
  | union cs => simp [fingerprint, children, tag, tail, String.toList_append, toList_listed]
  | intersection cs => simp [fingerprint, children, tag, tail, String.toList_append, toList_listed]
  | enum members =>
      have hzip := zipWith_map_append (fun (m : EnumMember) part => debugQuote m.key ++ "=" ++ part)
        (fun m => F m.node) members []
      rw [List.append_nil] at hzip
      simp [fingerprint, children, tag, tail, String.toList_append, toList_listed, Function.comp_def,
        hzip]
      rfl
  | interface members supers =>
      have hzip := zipWith_map_append (fun (m : InterfaceMember) part => memberMark m ++ part)
        (fun m => F m.node) members (supers.map F)
      simp [fingerprint, children, tag, tail, String.toList_append, toList_listed, Function.comp_def,
        hzip, toList_memberMark]
      rfl
  | _ => simp [fingerprint, tag, tail, String.toList_append]

/-- Texts of nodes that can be told apart and do not look like closing brackets. -/
structure Distinguishes (R : NodeId → NodeId → Prop) (F F' : NodeId → String) (as bs : List NodeId) :
    Prop where
  left : ∀ a ∈ as, ∃ c rest, (F a).toList = c :: rest ∧ c ≠ ')'
  right : ∀ b ∈ bs, ∃ c rest, (F' b).toList = c :: rest ∧ c ≠ ')'
  inj : ∀ a ∈ as, ∀ b ∈ bs, ∀ r s, (F a).toList ++ ',' :: r = (F' b).toList ++ ',' :: s → R a b ∧ r = s

variable {R : NodeId → NodeId → Prop} {F F' : NodeId → String} {r s : List Char}

theorem Distinguishes.mono {as bs as' bs' : List NodeId} (h : Distinguishes R F F' as bs)
    (ha : as' ⊆ as) (hb : bs' ⊆ bs) : Distinguishes R F F' as' bs' :=
  ⟨fun a hmem => h.left a (ha hmem), fun b hmem => h.right b (hb hmem),
    fun a hmem b hmem' => h.inj a (ha hmem) b (hb hmem')⟩

theorem Distinguishes.list {as bs : List NodeId} (h : Distinguishes R F F' as bs)
    (heq : commas (fun c => (F c).toList) as ++ ')' :: r =
      commas (fun c => (F' c).toList) bs ++ ')' :: s) : List.Forall₂ R as bs ∧ r = s :=
  listed_append_inj h.left h.right h.inj heq

theorem text_append_inj {a b : String} (ha : ',' ∉ a.toList) (hb : ',' ∉ b.toList) (hr : Stops r)
    (hs : Stops s) (h : a.toList ++ r = b.toList ++ s) : a = b ∧ r = s := by
  have hstop : ∀ {rest : List Char}, Stops rest → ∀ c ∈ rest.head?, ¬ (c != ',') = true := by
    intro rest hrest c hc
    rw [hrest c hc]
    decide
  have hpart : ∀ {text : String}, ',' ∉ text.toList → ∀ c ∈ text.toList, (c != ',') = true :=
    fun hnot c hc => bne_iff_ne.2 fun heq => hnot (heq ▸ hc)
  obtain ⟨hab, hrest⟩ := append_inj_of_forall (hpart ha) (hpart hb) (hstop hr) (hstop hs) h
  exact ⟨String.toList_inj.1 hab, hrest⟩

theorem ends_of_stops {rest : List Char} (h : Stops rest) : Json.Ends rest :=
  fun c hc => by rw [h c hc]; exact List.mem_cons_self

theorem debugQuote_head (k : String) (rest : List Char) :
    ∃ c more, (debugQuote k).toList ++ rest = c :: more ∧ c ≠ '}' :=
  ⟨'"', k.toList.flatMap debugChar ++ '"' :: rest, by simp [debugQuote], by decide⟩

theorem values_append_inj {ms ns : List EnumMember}
    (h : Distinguishes R F F' (ms.map (·.node)) (ns.map (·.node)))
    (heq : commas (valueChars F) ms ++ '}' :: r = commas (valueChars F') ns ++ '}' :: s) :
    List.Forall₂ (ValueAlike R) ms ns ∧ r = s := by
  refine listed_append_inj (fun m _ => debugQuote_head m.key _) (fun n _ => debugQuote_head n.key _)
    (fun m hm n hn r s heq => ?_) heq
  simp only [List.append_assoc, List.cons_append] at heq
  obtain ⟨hkey, heq⟩ := debugQuote_append_inj heq
  obtain ⟨hnode, rfl⟩ := h.inj m.node (List.mem_map_of_mem hm) n.node (List.mem_map_of_mem hn) r s
    (List.cons.inj heq).2
  exact ⟨⟨hkey, hnode⟩, rfl⟩

theorem members_append_inj {ms ns : List InterfaceMember}
    (h : Distinguishes R F F' (ms.map (·.node)) (ns.map (·.node)))
    (heq : commas (memberChars F) ms ++ '}' :: r = commas (memberChars F') ns ++ '}' :: s) :
    List.Forall₂ (MemberAlike R) ms ns ∧ r = s := by
  refine listed_append_inj (fun m _ => debugQuote_head m.key _) (fun n _ => debugQuote_head n.key _)
    (fun m hm n hn r s heq => ?_) heq
  simp only [List.append_assoc] at heq
  obtain ⟨hkey, heq⟩ := debugQuote_append_inj heq
  obtain ⟨hr, hp, hu, heq⟩ := markChars_append_inj heq
  obtain ⟨hnode, rfl⟩ := h.inj m.node (List.mem_map_of_mem hm) n.node (List.mem_map_of_mem hn) r s heq
  exact ⟨⟨hkey, hr, hp, hu, hnode⟩, rfl⟩

/-- Kinds with the same tag can be told apart by what follows it. -/
theorem tail_append_inj {k l : Kind} (htag : k.tag = l.tag) (hk : k.Delimited)
    (hl : l.Delimited) (h : Distinguishes R F F' k.children l.children) (hr : Stops r)
    (hs : Stops s) (heq : k.tail F ++ r = l.tail F' ++ s) : Alike R k l ∧ r = s := by
  cases k with
  | customType a =>
      cases l with
      | customType b =>
          obtain ⟨rfl, rfl⟩ := text_append_inj hk hl hr hs heq
          exact ⟨.leaf rfl, rfl⟩
      | _ => simp [tag] at htag
  | reference a =>
      cases l with
      | reference b =>
          obtain ⟨rfl, rfl⟩ := text_append_inj hk hl hr hs heq
          exact ⟨.leaf rfl, rfl⟩
      | _ => simp [tag] at htag
  | literal v =>
      cases l with
      | literal w =>
          obtain ⟨rfl, rfl⟩ := Json.readable_of_normal hk w r s hl (ends_of_stops hr)
            (ends_of_stops hs) heq
          exact ⟨.leaf rfl, rfl⟩
      | _ => simp [tag] at htag
  | array a =>
      cases l with
      | array b =>
          simp only [tail, List.append_assoc, List.singleton_append] at heq
          obtain ⟨hab, rfl⟩ := h.list heq
          exact ⟨.array (List.forall₂_cons.1 hab).1, rfl⟩
      | _ => simp [tag] at htag
  | tuple as =>
      cases l with
      | tuple bs =>
          simp only [tail, List.append_assoc, List.singleton_append] at heq
          obtain ⟨hab, rfl⟩ := h.list heq
          exact ⟨.tuple hab, rfl⟩
      | _ => simp [tag] at htag
  | union as =>
      cases l with
      | union bs =>
          simp only [tail, List.append_assoc, List.singleton_append] at heq
          obtain ⟨hab, rfl⟩ := h.list heq
          exact ⟨.union hab, rfl⟩
      | _ => simp [tag] at htag
  | intersection as =>
      cases l with
      | intersection bs =>
          simp only [tail, List.append_assoc, List.singleton_append] at heq
          obtain ⟨hab, rfl⟩ := h.list heq
          exact ⟨.intersection hab, rfl⟩
      | _ => simp [tag] at htag
  | enum ms =>
      cases l with
      | enum ns =>
          simp only [tail, List.append_assoc, List.singleton_append] at heq
          obtain ⟨hmn, rfl⟩ := values_append_inj h heq
          exact ⟨.enum hmn, rfl⟩
      | _ => simp [tag] at htag
  | interface ms ss =>
      cases l with
      | interface ns ts =>
          simp only [tail, List.append_assoc, List.cons_append] at heq
          obtain ⟨hmn, heq⟩ := members_append_inj
            (h.mono (List.subset_append_left _ _) (List.subset_append_left _ _)) heq
          obtain ⟨hst, rfl⟩ := (h.mono (List.subset_append_right _ _)
            (List.subset_append_right _ _)).list (List.append_cancel_left heq)
          exact ⟨.interface hmn hst, rfl⟩
      | _ => simp [tag] at htag
  | _ => cases l <;> first | exact ⟨.leaf rfl, heq⟩ | simp [tag] at htag

/-- Fingerprints of kinds can be told apart if those of their children can. -/
theorem fingerprint_append_inj {k l : Kind} (hk : k.Delimited) (hl : l.Delimited)
    (h : Distinguishes R F F' k.children l.children) (hr : Stops r) (hs : Stops s)
    (heq : (k.fingerprint (k.children.map F)).toList ++ r =
      (l.fingerprint (l.children.map F')).toList ++ s) : Alike R k l ∧ r = s := by
  rw [toList_fingerprint, toList_fingerprint, List.append_assoc, List.append_assoc] at heq
  obtain ⟨htag, heq⟩ := tag_append_inj heq
  exact tail_append_inj htag hk hl h hr hs heq

/-- The characters that the text of a node starts with if it is not that of a kind. -/
theorem head_of_tag : (tags.all fun t =>
    t.toList.head?.any fun c => !(['?', '@', '^', ')'].contains c)) = true := by
  decide +kernel

theorem exists_head_fingerprint (kind : Kind) (F : NodeId → String) (r : List Char) :
    ∃ c rest, (kind.fingerprint (kind.children.map F)).toList ++ r = c :: rest ∧
      c ∉ ['?', '@', '^', ')'] := by
  have hany := List.all_eq_true.1 head_of_tag _ kind.tag_mem_tags
  obtain ⟨c, hhead, hc⟩ := (Option.any_eq_true ..).1 hany
  obtain ⟨rest, htag⟩ := List.head?_eq_some_iff.1 hhead
  exact ⟨c, rest ++ (kind.tail F ++ r), by rw [toList_fingerprint, htag]; simp, by simpa using hc⟩

theorem fingerprint_ne_cons {kind : Kind} {F : NodeId → String} {c : Char} {r rest : List Char}
    (hc : c ∈ ['?', '@', '^', ')']) :
    (kind.fingerprint (kind.children.map F)).toList ++ r ≠ c :: rest := by
  obtain ⟨d, more, heq, hd⟩ := kind.exists_head_fingerprint F r
  rw [heq]
  intro h
  exact hd ((List.cons.inj h).1 ▸ hc)

end Kind

/-- Numbers show where they end. -/
theorem toString_append_inj {m n : Nat} {r s : List Char} (hr : Kind.Stops r) (hs : Kind.Stops s)
    (h : (toString m).toList ++ r = (toString n).toList ++ s) : m = n ∧ r = s := by
  have hstop : ∀ {rest : List Char}, Kind.Stops rest → ∀ c ∈ rest.head?, ¬ Identifier.isDigit c = true := by
    intro rest hrest c hc
    rw [hrest c hc]
    decide
  obtain ⟨hmn, hrest⟩ := append_inj_of_forall (fun c hc => Identifier.isDigit_of_mem_toString hc)
    (fun c hc => Identifier.isDigit_of_mem_toString hc) (hstop hr) (hstop hs) h
  exact ⟨Identifier.toString_injective (String.toList_inj.1 hmn), hrest⟩

namespace TypeGraph

variable {g : TypeGraph} {resolve : NodeId → NodeId} {live : NodeId → Prop}
  {E : NodeId → NodeId → Prop}

/-! ## Fingerprints of nodes -/

/-- The forms of a fingerprint. -/
inductive Form (g : TypeGraph) (resolve : NodeId → NodeId) (fresh : List NodeId) (top : Bool)
    (id : NodeId) : List Char → Prop where
  | unbuilt (get : g.get? (resolve id) = none) :
      Form g resolve fresh top id ('?' :: '#' :: (toString (resolve id)).toList)
  | named {node : Node} {name : String} (get : g.get? (resolve id) = some node) (below : top = false)
      (named : node.name = some name) : Form g resolve fresh top id ('@' :: name.toList)
  | expanded {node : Node} (get : g.get? (resolve id) = some node) (mem : resolve id ∈ fresh)
      (unnamed : top = true ∨ node.name = none) :
      Form g resolve fresh top id (node.kind.fingerprint (node.kind.children.map
        (g.fingerprintFrom resolve (fresh.erase (resolve id)) false))).toList
  | above {node : Node} (get : g.get? (resolve id) = some node) :
      Form g resolve fresh top id ('^' :: '#' :: (toString (resolve id)).toList)

theorem form_fingerprintFrom (g : TypeGraph) (resolve : NodeId → NodeId) (fresh : List NodeId)
    (top : Bool) (id : NodeId) :
    Form g resolve fresh top id (g.fingerprintFrom resolve fresh top id).toList := by
  unfold fingerprintFrom
  dsimp only
  split
  · rename_i hnone
    simpa [String.toList_append] using Form.unbuilt hnone
  · rename_i node hn
    split
    · rename_i name hname
      simpa [String.toList_append] using Form.named hn rfl hname
    · rename_i top _ _ hnot
      have hname : top = true ∨ node.name = none := by
        cases htop : top with
        | true => exact .inl rfl
        | false => exact .inr (Option.eq_none_iff_forall_ne_some.2 fun name => hnot name htop)
      split
      · rename_i hmem
        exact .expanded hn hmem hname
      · simpa [String.toList_append] using Form.above hn

theorem Form.head {fresh : List NodeId} {top : Bool} {id : NodeId} {text : List Char}
    (h : Form g resolve fresh top id text) : ∃ c rest, text = c :: rest ∧ c ≠ ')' := by
  cases h with
  | unbuilt => exact ⟨_, _, rfl, by decide⟩
  | named => exact ⟨_, _, rfl, by decide⟩
  | @expanded node get mem =>
      obtain ⟨c, rest, heq, hc⟩ := node.kind.exists_head_fingerprint
        (g.fingerprintFrom resolve (fresh.erase (resolve id)) false) []
      rw [List.append_nil] at heq
      exact ⟨c, rest, heq, fun h => hc (by simp [h])⟩
  | above => exact ⟨_, _, rfl, by decide⟩

/-- The names and texts below live nodes show where they end. -/
structure Plain (g : TypeGraph) (live : NodeId → Prop) : Prop where
  kind : ∀ id node, live id → g.get? id = some node → node.kind.Plain
  name : ∀ id node name, live id → g.get? id = some node → node.name = some name →
    Identifier.isBare name.toList = true

/-- A relation that does not see more of a node than its name, or what it is made of. -/
structure Congruence (g : TypeGraph) (resolve : NodeId → NodeId) (live : NodeId → Prop)
    (E : NodeId → NodeId → Prop) : Prop where
  same : ∀ a b, live a → live b → resolve a = resolve b → E a b
  named : ∀ a b node node' name, live a → live b → g.get? (resolve a) = some node →
    g.get? (resolve b) = some node' → node.name = some name → node'.name = some name → E a b
  alike : ∀ a b node node', live a → live b → g.get? (resolve a) = some node →
    g.get? (resolve b) = some node' → Kind.Alike E node.kind node'.kind → E a b

/-- The names and texts below live nodes have no commas. -/
structure Delimited (g : TypeGraph) (live : NodeId → Prop) : Prop where
  kind : ∀ id node, live id → g.get? id = some node → node.kind.Delimited
  name : ∀ id node name, live id → g.get? id = some node → node.name = some name →
    ',' ∉ name.toList

theorem Plain.delimited (h : g.Plain live) : g.Delimited live where
  kind id node hid get := (h.kind id node hid get).delimited
  name id node name hid get hname := Kind.not_comma_of_isBare (h.name id node name hid get hname)

/-- A relation of nodes, at the top and below, that does not see more of a node than what it is made
of or, below, its name. -/
structure Likeness (g : TypeGraph) (resolve : NodeId → NodeId) (live : NodeId → Prop)
    (E : Bool → NodeId → NodeId → Prop) : Prop where
  same : ∀ top a b, live a → live b → resolve a = resolve b → E top a b
  named : ∀ a b node node' name, live a → live b → g.get? (resolve a) = some node →
    g.get? (resolve b) = some node' → node.name = some name → node'.name = some name → E false a b
  alike : ∀ top a b node node', live a → live b → g.get? (resolve a) = some node →
    g.get? (resolve b) = some node' → top = true ∨ node.name = none ∧ node'.name = none →
    Kind.Alike (E false) node.kind node'.kind → E top a b

section Likeness

variable {L : Bool → NodeId → NodeId → Prop} (hL : Likeness g resolve live L)
  (hd : g.Delimited live) (hres : ∀ id, live id → live (resolve id))
  (hchild : ∀ id node, live id → g.get? id = some node → ∀ c ∈ node.kind.children, live c)

include hL hd hres hchild

/-- Fingerprints show where they end, and which nodes are alike. -/
theorem Likeness.fingerprintFrom_append_inj (fresh fresh' : List NodeId) (top : Bool)
    (a b : NodeId) (r s : List Char) (ha : live a) (hb : live b) (hr : Kind.Stops r)
    (hs : Kind.Stops s)
    (heq : (g.fingerprintFrom resolve fresh top a).toList ++ r =
      (g.fingerprintFrom resolve fresh' top b).toList ++ s) : L top a b ∧ r = s := by
  have forma := form_fingerprintFrom g resolve fresh top a
  have formb := form_fingerprintFrom g resolve fresh' top b
  generalize htexta : (g.fingerprintFrom resolve fresh top a).toList = ta at forma heq
  generalize htextb : (g.fingerprintFrom resolve fresh' top b).toList = tb at formb heq
  cases forma with
  | unbuilt geta =>
      cases formb with
      | unbuilt getb =>
          obtain ⟨hab, rfl⟩ := toString_append_inj hr hs
            (List.cons.inj (List.cons.inj heq).2).2
          exact ⟨hL.same top a b ha hb hab, rfl⟩
      | expanded => exact absurd heq.symm (Kind.fingerprint_ne_cons (by decide))
      | _ => simp at heq
  | named geta belowa nameda =>
      cases formb with
      | named getb belowb namedb =>
          obtain ⟨hname, rfl⟩ := Kind.text_append_inj (hd.name _ _ _ (hres a ha) geta nameda)
            (hd.name _ _ _ (hres b hb) getb namedb) hr hs (List.cons.inj heq).2
          exact ⟨belowa ▸ hL.named a b _ _ _ ha hb geta getb nameda (hname ▸ namedb), rfl⟩
      | expanded => exact absurd heq.symm (Kind.fingerprint_ne_cons (by decide))
      | _ => simp at heq
  | @expanded node geta mema namea =>
      cases formb with
      | @expanded node' getb memb nameb =>
          have hshorter : (fresh.erase (resolve a)).length < fresh.length :=
            Walk.length_erase_lt_of_mem mema
          have hparts : Kind.Distinguishes (L false)
              (g.fingerprintFrom resolve (fresh.erase (resolve a)) false)
              (g.fingerprintFrom resolve (fresh'.erase (resolve b)) false)
              node.kind.children node'.kind.children := by
            refine ⟨fun c _ => (form_fingerprintFrom ..).head,
              fun c _ => (form_fingerprintFrom ..).head, fun c hc d hd' r s heq => ?_⟩
            obtain ⟨hcd, htail⟩ := Likeness.fingerprintFrom_append_inj _ _ false c d _ _
              (hchild _ _ (hres a ha) geta c hc) (hchild _ _ (hres b hb) getb d hd')
              (Kind.stops_comma r) (Kind.stops_comma s) heq
            exact ⟨hcd, (List.cons.inj htail).2⟩
          obtain ⟨halike, rfl⟩ := Kind.fingerprint_append_inj (hd.kind _ _ (hres a ha) geta)
            (hd.kind _ _ (hres b hb) getb) hparts hr hs heq
          refine ⟨hL.alike top a b _ _ ha hb geta getb ?_ halike, rfl⟩
          exact namea.elim .inl fun hnone => nameb.imp_right fun hnone' => ⟨hnone, hnone'⟩
      | _ => exact absurd heq (Kind.fingerprint_ne_cons (by decide))
  | above geta =>
      cases formb with
      | above getb =>
          obtain ⟨hab, rfl⟩ := toString_append_inj hr hs
            (List.cons.inj (List.cons.inj heq).2).2
          exact ⟨hL.same top a b ha hb hab, rfl⟩
      | expanded => exact absurd heq.symm (Kind.fingerprint_ne_cons (by decide))
      | _ => simp at heq
termination_by fresh.length

/-- Nodes with the same fingerprint are alike. -/
theorem Likeness.of_fingerprint {a b : NodeId} (ha : live a) (hb : live b)
    (heq : g.fingerprint resolve a = g.fingerprint resolve b) : L true a b := by
  have heq : (g.fingerprint resolve a).toList ++ [] = (g.fingerprint resolve b).toList ++ [] := by
    rw [heq]
  exact (hL.fingerprintFrom_append_inj hd hres hchild _ _ true a b [] [] ha hb Kind.stops_nil
    Kind.stops_nil heq).1

end Likeness

theorem Congruence.likeness (hE : Congruence g resolve live E) :
    Likeness g resolve live fun _ => E where
  same _ := hE.same
  named := hE.named
  alike _ a b node node' ha hb geta getb _ := hE.alike a b node node' ha hb geta getb

/-- Nodes with the same fingerprint are congruent. -/
theorem Congruence.of_fingerprint (hE : Congruence g resolve live E) (hplain : g.Plain live)
    (hres : ∀ id, live id → live (resolve id))
    (hchild : ∀ id node, live id → g.get? id = some node → ∀ c ∈ node.kind.children, live c)
    {a b : NodeId} (ha : live a) (hb : live b)
    (heq : g.fingerprint resolve a = g.fingerprint resolve b) : E a b :=
  hE.likeness.of_fingerprint hplain.delimited hres hchild ha hb heq

end TypeGraph

end Typewright
