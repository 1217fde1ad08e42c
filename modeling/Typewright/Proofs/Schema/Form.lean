import Typewright.Schema.Form

/-!
# Where the parts of a form come from

Every text, list, item and value that a form carries is the value of a keyword of the schema.
-/

namespace Typewright.Schema

/-- The parts of a form are values of keywords in `ms`. -/
def Form.ComesFrom (ms : Members) : Form → Prop
  | .verbatim text => ms.lookup "tsType" = some (.string text)
  | .allOf items => ms.lookup "allOf" = some (.array items)
  | .someOf keyword items =>
    (keyword = "anyOf" ∨ keyword = "oneOf") ∧ ms.lookup keyword = some (.array items)
  | .tuple items => ms.lookup "items" = some (.array items)
  | .listOf item => item.isSchema = true ∧ ms.lookup "items" = some item
  | .enumeration values => ms.lookup "enum" = some (.array values)
  | .constant value => ms.lookup "const" = some value
  | .interface described => described = ms
  | _ => True

variable (u : Bool) (ms : Members)

theorem comesFrom_defaultForm (v : Option Json) : (defaultForm v).ComesFrom ms := by
  unfold defaultForm
  split <;> trivial

theorem comesFrom_namedForm (t : Option String) : (namedForm u ms t).ComesFrom ms := by
  have hrest : (if describesMembers u ms then .interface ms
      else defaultForm (ms.lookup "default")).ComesFrom ms := by
    split
    · rfl
    · exact comesFrom_defaultForm ms _
  unfold namedForm
  dsimp only
  split
  case h_7 => split <;> trivial
  case h_8 => exact hrest
  all_goals trivial

theorem comesFrom_valueForm (t : Option String) : (valueForm u ms t).ComesFrom ms := by
  unfold valueForm
  split
  · assumption
  · split
    · assumption
    · exact comesFrom_namedForm u ms t

theorem comesFrom_itemsForm (t : Option String) : (itemsForm u ms t).ComesFrom ms := by
  unfold itemsForm
  split
  · assumption
  · exact ⟨rfl, ‹_›⟩
  · exact ⟨rfl, ‹_›⟩
  · exact comesFrom_valueForm u ms t

theorem comesFrom_typeForm (t : Option Json) : (typeForm u ms t).ComesFrom ms := by
  unfold typeForm
  split
  · trivial
  · trivial
  · exact comesFrom_itemsForm u ms _

theorem comesFrom_objectForm (t : Option Json) : (objectForm u ms t).ComesFrom ms := by
  unfold objectForm
  split
  · assumption
  · unfold choiceForm
    split
    · assumption
    · split
      · exact ⟨.inl rfl, ‹_›⟩
      · split
        · exact ⟨.inr rfl, ‹_›⟩
        · exact comesFrom_typeForm u ms t

/-- A form with parts is that of an object schema. -/
theorem exists_members_of_form {variant : Option Nat} {schema : Json} {f : Form}
    (h : form u variant schema = f) :
    (∃ ms, schema = .object ms ∧ f.ComesFrom ms) ∨ f = .any ∨ f = .never ∨ f = .invalid := by
  subst h
  unfold form
  split
  · exact .inr (.inl rfl)
  · exact .inr (.inr (.inl rfl))
  · exact .inl ⟨_, rfl, comesFrom_objectForm u _ _⟩
  · exact .inr (.inr (.inr rfl))

end Typewright.Schema
