import Typewright.Proofs.Declaration.Marked
import Typewright.Proofs.Json.Text
import Typewright.Proofs.TypeGraph.Keys

/-!
# The keys of a body

The body of an interface, declared or inline, has a line for each member that is written, and the
body of an enum one for each of its members. Each line shows the key of its member
(`exists_lines_of_interface`, `exists_lines_of_enum`), and different keys are shown in different ways
(`keyText_injective`). So where the keys of a node are distinct, each is shown once
(`showsOnce_of_nodup`).
-/

namespace Typewright

namespace Declaration

/-! ## Keys as they are written -/

/-- A key that is written as it is does not begin with a quote. -/
theorem head?_ne_quote {key : String}
    (h : (key == indexSignature || Identifier.isBare key.toList) = true) :
    key.toList.head? ≠ some '"' := by
  rcases Bool.or_eq_true_iff.1 h with h | h
  · rw [eq_of_beq h]
    decide
  · intro hhead
    cases hk : key.toList with
    | nil => simp [hk] at hhead
    | cons c rest =>
        rw [hk] at h hhead
        obtain rfl := Option.some.inj hhead
        simp [Identifier.isBare, Identifier.isStart, Identifier.isLetter, Identifier.isLower,
          Identifier.isUpper] at h

theorem head?_quote (s : String) : (Json.quote s).toList.head? = some '"' := by
  simp [Json.quote]

theorem keyText_injective : Function.Injective keyText := by
  intro a b h
  unfold keyText at h
  split at h <;> split at h
  · exact h
  · rename_i ha _
    exact absurd (h ▸ head?_quote b) (head?_ne_quote ha)
  · rename_i _ hb
    exact absurd (h ▸ head?_quote a) (head?_ne_quote hb)
  · have happend : (Json.quote a).toList ++ [] = (Json.quote b).toList ++ [] := by rw [h]
    exact (Json.quote_append_inj happend).1

/-! ## Lines -/

/-- The keys in the body of an interface or an enum, as they are written. -/
def writtenKeys (kind : Kind) : List String := kind.keys.map keyText

/-- The line of a member under a key: a comment, the key, a question mark unless the member is
required, and a type. -/
def MemberLine (key line : String) : Prop :=
  ∃ comment mark type, line = comment ++ key ++ mark ++ ": " ++ type ∧ (mark = "" ∨ mark = "?")

/-- The line of an enum member under a key. -/
def ValueLine (key line : String) : Prop := ∃ value, line = key ++ " = " ++ value

/-- The text of a node shows each key of its body once, on a line of its own. -/
structure ShowsOnce (g : TypeGraph) (options : Options) (id : NodeId) (node : Node) : Prop where
  distinct : (writtenKeys node.kind).Nodup
  /-- An interface, declared or inline, has a line for each key, and is empty without keys. -/
  interface : ∀ members supers parts, node.kind = .interface members supers →
    (shown node.kind).length = parts.length →
    (writtenKeys node.kind = [] ∧ kindText g node.kind parts = "\x7b\x7d") ∨
    ∃ lines, kindText g node.kind parts = "\x7b\n" ++ String.intercalate "\n" lines ++ "\n\x7d" ∧
      List.Forall₂ MemberLine (writtenKeys node.kind) lines
  /-- An enum is declared with a line for each key. -/
  enum : ∀ members path text, node.kind = .enum members →
    enumText g options id node members path = .ok text →
    ∃ front lines, text = front ++ " \x7b\n" ++ String.intercalate ",\n" lines ++ "\n\x7d" ∧
      List.Forall₂ ValueLine (writtenKeys node.kind) lines

/-- A member is written as its key and its type, after the comment of the type. -/
theorem exists_memberText (g : TypeGraph) (m : InterfaceMember) :
    ∃ comment, ∀ type, memberText g m type =
      comment ++ keyText m.key ++ (if m.required then "" else "?") ++ ": " ++ type :=
  ⟨_, fun _ => rfl⟩

theorem forall₂_zipWith {α β γ δ : Type} {r : γ → δ → Prop} {f : α → γ} {h : α → β → δ}
    (hr : ∀ a b, r (f a) (h a b)) {as : List α} {bs : List β} (hl : as.length = bs.length) :
    List.Forall₂ r (as.map f) (as.zipWith h bs) := by
  induction as generalizing bs with
  | nil => exact .nil
  | cons a as ih =>
      cases bs with
      | nil => cases hl
      | cons b bs => exact .cons (hr a b) (ih (Nat.succ.inj hl))

/-- The text of an interface has a line for each written key, in order. -/
theorem exists_lines_of_interface (g : TypeGraph) {members : List InterfaceMember}
    (supers : List NodeId) {parts : List String} (hne : members.filter (·.isWritten) ≠ [])
    (hl : (shown (.interface members supers)).length = parts.length) :
    ∃ lines, kindText g (.interface members supers) parts =
        "\x7b\n" ++ String.intercalate "\n" lines ++ "\n\x7d" ∧
      List.Forall₂ MemberLine (writtenKeys (.interface members supers)) lines := by
  refine ⟨(members.filter (·.isWritten)).zipWith (memberText g) parts, ?_, ?_⟩
  · exact if_neg fun hempty => hne (List.isEmpty_iff.1 hempty)
  · rw [writtenKeys, Kind.keys, List.map_map]
    refine forall₂_zipWith (fun m type => ?_) ?_
    · obtain ⟨comment, hcomment⟩ := exists_memberText g m
      refine ⟨comment, _, type, hcomment type, ?_⟩
      cases m.required
      · exact .inr rfl
      · exact .inl rfl
    · rw [← hl, shown, List.length_map]
      rfl

/-- The declaration of an enum has a line for each written key, in order. -/
theorem exists_lines_of_enum {g : TypeGraph} {options : Options} {members : List EnumMember}
    {id : NodeId} {node : Node} {path text : String}
    (h : enumText g options id node members path = .ok text) :
    ∃ front lines, text = front ++ " \x7b\n" ++ String.intercalate ",\n" lines ++ "\n\x7d" ∧
      List.Forall₂ ValueLine (writtenKeys (.enum members)) lines := by
  obtain ⟨lines, hlines, htext⟩ := Loading.ok_of_bind h
  refine ⟨leadingComment node ++ "export " ++ (if options.enableConstEnums then "const " else "") ++
    "enum " ++ declaredName node, lines, ?_, ?_⟩
  · exact (Except.ok.inj htext).symm
  · rw [writtenKeys, Kind.keys, List.map_map]
    refine List.forall₂_map_left_iff.2 ((forall₂_of_mapM hlines).imp fun m line hline => ?_)
    obtain ⟨value, -, hvalue⟩ := Loading.ok_of_bind hline
    exact ⟨value, (Except.ok.inj hvalue).symm⟩

/-- Distinct keys are shown once. -/
theorem showsOnce_of_nodup {g : TypeGraph} {options : Options} {id : NodeId} {node : Node}
    (h : node.kind.keys.Nodup) : ShowsOnce g options id node where
  distinct := h.map keyText_injective
  interface members supers parts hk hl := by
    rw [hk] at hl ⊢
    by_cases hnone : members.filter (·.isWritten) = []
    · refine .inl ⟨?_, if_pos (List.isEmpty_iff.2 hnone)⟩
      rw [writtenKeys, Kind.keys, hnone]
      rfl
    · exact .inr (exists_lines_of_interface g supers hnone hl)
  enum members path text hk htext := by
    rw [hk]
    exact exists_lines_of_enum htext

end Declaration

end Typewright
