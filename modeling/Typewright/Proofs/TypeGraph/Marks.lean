import Typewright.Proofs.TypeGraph.Fingerprint

/-!
# Numbers of nodes in fingerprints

A fingerprint mentions a node by its number where the node is not built or stands further up. If no
text of a graph looks like such a mention, then fingerprints that differ only in how nodes are
numbered are equal in one numbering just when they are in the other (`Renamed.unique`).
-/

namespace Typewright

/-! ## Texts without marks -/

/-- The characters that start a mention of a node. -/
def isMark (c : Char) : Bool := c == '^' || c == '?'

/-- No mention of a node starts in a text. -/
def unmarked : List Char → Bool
  | [] => true
  | c :: rest => !(isMark c && rest.head? == some '#') && unmarked rest

theorem unmarked_cons {c : Char} {rest : List Char} :
    unmarked (c :: rest) = true ↔ (isMark c = true → rest.head? ≠ some '#') ∧ unmarked rest := by
  rw [unmarked, Bool.and_eq_true, Bool.not_eq_true', Bool.and_eq_false_imp]
  simp

/-- Texts may be joined where the first does not end in a mark. -/
theorem unmarked_append {xs ys : List Char} (hx : unmarked (xs ++ ['#']) = true)
    (hy : unmarked ys = true) : unmarked (xs ++ ys) = true := by
  induction xs with
  | nil => exact hy
  | cons c rest ih =>
      rw [List.cons_append, unmarked_cons] at hx ⊢
      refine ⟨fun hc => ?_, ih hx.2⟩
      cases rest with
      | nil => exact absurd rfl (hx.1 hc)
      | cons d more => exact hx.1 hc

/-- A text may be followed by a character that is neither a mark nor a number sign. -/
theorem unmarked_concat {xs : List Char} {c : Char} (hx : unmarked xs = true)
    (hc : isMark c = false) (hne : c ≠ '#') : unmarked (xs ++ [c] ++ ['#']) = true := by
  induction xs with
  | nil => simp [unmarked, hc, show isMark '#' = false by decide]
  | cons d rest ih =>
      rw [unmarked_cons] at hx
      refine unmarked_cons.2 ⟨fun hd => ?_, ih hx.2⟩
      cases rest with
      | nil => simpa using hne
      | cons e more => exact hx.1 hd

/-! ## Texts that differ in marks -/

/-- Texts that are the same but for the numbers of the nodes they mention. -/
inductive Renamed (R : NodeId → NodeId → Prop) : List Char → List Char → Prop
  | nil : Renamed R [] []
  | plain {c : Char} {r r' : List Char} (hc : isMark c = true → r.head? ≠ some '#')
      (h : Renamed R r r') : Renamed R (c :: r) (c :: r')
  | mark {c : Char} {m n : NodeId} {r r' : List Char} (hc : isMark c = true) (hmn : R m n)
      (h : Renamed R r r') : Renamed R (c :: '#' :: (toString m).toList ++ ',' :: r)
        (c :: '#' :: (toString n).toList ++ ',' :: r')

variable {R : NodeId → NodeId → Prop} {x x' y y' r r' : List Char}

/-- The numbering decides the other text. -/
theorem Renamed.unique (hR : ∀ m n n', R m n → R m n' → n = n') (h : Renamed R x y)
    (h' : Renamed R x y') : y = y' := by
  induction h generalizing y' with
  | nil =>
      cases h'
      rfl
  | @plain c r s hc h ih =>
      generalize hx : c :: r = text at h'
      cases h' with
      | nil => cases hx
      | plain _ h' =>
          obtain ⟨rfl, rfl⟩ := List.cons.inj hx
          rw [ih h']
      | mark hc' _ _ =>
          obtain ⟨rfl, rfl⟩ := List.cons.inj hx
          exact absurd rfl (hc hc')
  | @mark c m n r s hc hmn h ih =>
      generalize hx : c :: '#' :: (toString m).toList ++ ',' :: r = text at h'
      cases h' with
      | nil => cases hx
      | plain hc' _ =>
          obtain ⟨rfl, rfl⟩ := List.cons.inj hx
          exact absurd rfl (hc' hc)
      | @mark _ m' n' _ _ _ hmn' h' =>
          have hc := (List.cons.inj hx).1
          obtain ⟨rfl, hr⟩ := toString_append_inj (Kind.stops_comma _) (Kind.stops_comma _)
            (List.cons.inj (List.cons.inj hx).2).2
          obtain rfl := (List.cons.inj hr).2
          rw [hc, hR m n n' hmn hmn', ih h']

theorem Renamed.char {c : Char} (hc : isMark c = false) (h : Renamed R r r') :
    Renamed R (c :: r) (c :: r') :=
  .plain (fun hmark => by rw [hc] at hmark; cases hmark) h

theorem Renamed.head?_eq (h : Renamed R x y) : x.head? = y.head? := by
  cases h <;> rfl

theorem Renamed.symm (h : Renamed R x y) : Renamed (fun n m => R m n) y x := by
  induction h with
  | nil => exact .nil
  | plain hc h ih => exact .plain (h.head?_eq ▸ hc) ih
  | mark hc hmn _ ih => exact .mark hc hmn ih

/-- Texts that are the same but for mentions, where a comma follows. -/
def Written (R : NodeId → NodeId → Prop) (x x' : List Char) : Prop :=
  ∀ r r', Renamed R r r' → Renamed R (x ++ ',' :: r) (x' ++ ',' :: r')

theorem Renamed.text (hu : unmarked (x ++ ['#']) = true) (h : Renamed R r r') :
    Renamed R (x ++ r) (x ++ r') := by
  induction x with
  | nil => exact h
  | cons c rest ih =>
      rw [List.cons_append, unmarked_cons] at hu
      refine .plain (fun hc => ?_) (ih hu.2)
      cases rest with
      | nil => exact absurd rfl (hu.1 hc)
      | cons d more => exact hu.1 hc

theorem Written.text (hu : unmarked x = true) : Written R x x := by
  intro r r' h
  rw [← List.singleton_append, ← List.append_assoc, ← List.singleton_append (l := r'),
    ← List.append_assoc]
  exact h.text (unmarked_concat hu (by decide) (by decide))

theorem Written.append (hu : unmarked (y ++ ['#']) = true) (h : Written R x x') :
    Written R (y ++ x) (y ++ x') := by
  intro r r' hr
  rw [List.append_assoc, List.append_assoc]
  exact (h r r' hr).text hu

/-- The numbering decides the other text. -/
theorem Written.unique (hR : ∀ m n n', R m n → R m n' → n = n') (h : Written R x y)
    (h' : Written R x y') : y = y' := by
  have heq := (h [] [] .nil).unique hR (h' [] [] .nil)
  exact List.append_cancel_right heq

theorem Written.symm (h : Written R x y) : Written (fun n m => R m n) y x :=
  fun _ _ hr => (h _ _ hr.symm).symm

namespace Kind

/-- Lists of parts that are the same but for mentions. -/
theorem renamed_commas {α β : Type} {write : α → List Char} {write' : β → List Char}
    {f : α → β} {xs : List α} (h : ∀ a ∈ xs, Written R (write' (f a)) (write a))
    (hr : Renamed R r r') : Renamed R (commas write' (xs.map f) ++ r) (commas write xs ++ r') := by
  induction xs with
  | nil => exact hr
  | cons a rest ih =>
      rw [List.map_cons, commas, commas, List.flatMap_cons, List.flatMap_cons, ← commas, ← commas]
      simp only [List.append_assoc, List.singleton_append]
      exact h a List.mem_cons_self _ _ (ih fun b hb => h b (List.mem_cons_of_mem _ hb))

/-- The texts of a kind, as its fingerprint writes them. -/
def texts : Kind → List String
  | .customType text | .reference text => [text]
  | .literal value => [value.text]
  | .enum members => members.map fun m => debugQuote m.key
  | .interface members _ => members.map fun m => debugQuote m.key
  | _ => []

theorem texts_mapChildren (f : NodeId → NodeId) (kind : Kind) :
    (kind.mapChildren f).texts = kind.texts := by
  cases kind <;> simp [mapChildren, texts]

theorem unmarked_tags : ∀ t ∈ tags, unmarked (t.toList ++ ['#']) = true := by decide +kernel

theorem unmarked_debugQuote {k : String} (h : unmarked (debugQuote k).toList = true) :
    unmarked ((debugQuote k).toList ++ ['#']) = true := by
  have hquote : (debugQuote k).toList = '"' :: k.toList.flatMap debugChar ++ ['"'] := by
    simp [debugQuote]
  rw [hquote] at h ⊢
  generalize '"' :: k.toList.flatMap debugChar = cs at h ⊢
  induction cs with
  | nil => decide
  | cons c rest ih =>
      rw [List.cons_append, unmarked_cons] at h
      refine unmarked_cons.2 ⟨fun hc => ?_, ih h.2⟩
      cases rest with
      | nil => exact h.1 hc
      | cons d more => exact h.1 hc

theorem unmarked_markChars (m : InterfaceMember) : unmarked (markChars m ++ ['#']) = true := by
  unfold markChars
  cases m.required <;> cases m.pattern <;> cases m.unreachable <;> decide

/-- Fingerprints of a kind with its children numbered in two ways. -/
theorem written_fingerprint {kind : Kind} {f : NodeId → NodeId} {F F' : NodeId → String}
    (hu : ∀ t ∈ kind.texts, unmarked t.toList = true)
    (h : ∀ c ∈ kind.children, Written R (F' (f c)).toList (F c).toList) :
    Written R
      ((kind.mapChildren f).fingerprint ((kind.mapChildren f).children.map F')).toList
      (kind.fingerprint (kind.children.map F)).toList := by
  rw [toList_fingerprint, toList_fingerprint]
  have hlist : ∀ {cs : List NodeId}, (∀ c ∈ cs, Written R (F' (f c)).toList (F c).toList) →
      ∀ {r r'}, Renamed R r r' → Renamed R (commas (fun c => (F' c).toList) (cs.map f) ++ ')' :: r)
        (commas (fun c => (F c).toList) cs ++ ')' :: r') := by
    intro cs hcs r r' hr
    exact renamed_commas hcs (.char (by decide) hr)
  have htag : ∀ (k : Kind), unmarked (k.tag.toList ++ ['#']) = true := fun k =>
    unmarked_tags _ k.tag_mem_tags
  have hleaf : ∀ {k : Kind}, unmarked (k.tail F) = true → k.tail F' = k.tail F →
      Written R (k.tag.toList ++ k.tail F') (k.tag.toList ++ k.tail F) := by
    intro k hk heq
    rw [heq]
    exact .text (unmarked_append (htag k) hk)
  cases kind with
  | customType text => exact hleaf (hu _ List.mem_cons_self) rfl
  | reference text => exact hleaf (hu _ List.mem_cons_self) rfl
  | literal value => exact hleaf (hu _ List.mem_cons_self) rfl
  | array element =>
      refine .append (htag _) fun r r' hr => ?_
      have hcomma : isMark ',' = false := by decide
      simp only [tail, mapChildren, List.append_assoc, List.singleton_append]
      exact hlist (show ∀ c ∈ [element], _ from h) (.char hcomma hr)
  | tuple cs | union cs | intersection cs =>
      refine .append (htag _) fun r r' hr => ?_
      simp only [tail, mapChildren, List.append_assoc, List.singleton_append]
      exact hlist h (.char (by decide) hr)
  | enum members =>
      refine .append (htag _) fun r r' hr => ?_
      simp only [tail, mapChildren, List.append_assoc, List.singleton_append]
      refine renamed_commas (fun m hm => ?_) (.char (by decide) (.char (by decide) hr))
      have hquote := hu _ (List.mem_map_of_mem hm)
      have hequal : unmarked ((debugQuote m.key).toList ++ ['='] ++ ['#']) = true :=
        unmarked_concat hquote (by decide) (by decide)
      simpa [valueChars] using Written.append hequal (h m.node (List.mem_map_of_mem hm))
  | interface members supers =>
      refine .append (htag _) fun r r' hr => ?_
      simp only [tail, mapChildren, List.append_assoc, List.cons_append, List.nil_append]
      refine renamed_commas (fun m hm => ?_) (.char (by decide) (.text (by decide)
        (hlist (fun c hc => h c (List.mem_append_right _ hc)) (.char (by decide) hr))))
      have hquote := unmarked_debugQuote (hu _ (List.mem_map_of_mem hm))
      have hmark := unmarked_append hquote (unmarked_markChars m)
      rw [← List.append_assoc] at hmark
      have hmember := Written.append hmark (h m.node
        (List.mem_append_left _ (List.mem_map_of_mem hm)))
      simpa [memberChars, markChars] using hmember
  | _ => exact hleaf rfl rfl

end Kind

end Typewright
