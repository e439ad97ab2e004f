import ScopeGraphs.Checkpoint.Shape
import ScopeGraphs.Ident
import ScopeGraphs.Settings
import ScopeGraphs.Units.Phase

/-!
# Types of checkpoints

What a checker writes down is not a value of a shape but a value of a type of its own. A type is
`Storable` if it comes with a shape, and its values turn into values of this shape and back. A type
with one field is written like that field, a record like the pair of its fields, and one of several
alternatives as the number of the alternative.
-/

namespace ScopeGraphs

/-- A type whose values can be written down. -/
class Storable (α : Type) where
  /-- The shape in which they are written. -/
  shape : Shape
  /-- What is written for a value. -/
  toValue : α → shape.Value
  /-- The value that was written. -/
  ofValue : shape.Value → α
  /-- The value that was written is the one that was to be written. -/
  ofValue_toValue : ∀ a, ofValue (toValue a) = a

namespace Storable

variable {α β : Type}

/-! ## Values that stand for themselves -/

/-- The values of a shape. -/
@[reducible] def ofShape (s : Shape) : Storable s.Value := ⟨s, id, id, fun _ ↦ rfl⟩

instance : Storable Bool := ofShape .bool

instance : Storable UInt8 := ofShape .byte

instance (w : Width) : Storable { n : Nat // n < w.bound } := ofShape (.unsigned w)

instance : Storable { i : Int // -128 ≤ i ∧ i < 128 } := ofShape .signedByte

instance (w : Width) : Storable { i : Int // -(w.bound : Int) ≤ 2 * i ∧ 2 * i < w.bound } :=
  ofShape (.signed w)

instance : Storable Char := ofShape .char

instance : Storable String := ofShape .text

instance : Storable Unit := ofShape .unit

/-! ## Values made of others -/

theorem ofValue_comp_toValue [Storable α] : (ofValue ∘ toValue : α → α) = id :=
  funext ofValue_toValue

instance [Storable α] : Storable (List α) where
  shape := .list (shape α)
  toValue as := as.map toValue
  ofValue vs := vs.map ofValue
  ofValue_toValue as := by
    rw [List.map_map, ofValue_comp_toValue, List.map_id]

instance [Storable α] : Storable (Option α) where
  shape := .option (shape α)
  toValue o := o.map toValue
  ofValue o := o.map ofValue
  ofValue_toValue o := by
    rw [Option.map_map, ofValue_comp_toValue, Option.map_id]
    rfl

instance [Storable α] [Storable β] : Storable (α × β) where
  shape := .pair (shape α) (shape β)
  toValue p := (toValue p.1, toValue p.2)
  ofValue v := (ofValue v.1, ofValue v.2)
  ofValue_toValue p := by rw [ofValue_toValue, ofValue_toValue]

instance [Storable α] : Storable (SortedMap String α) where
  shape := .map (shape α)
  toValue m := m.map fun _ a ↦ toValue a
  ofValue m := m.map fun _ v ↦ ofValue v
  ofValue_toValue m := by
    rw [Std.ExtTreeMap.map_map]
    simp only [ofValue_toValue]
    exact Std.ExtTreeMap.map_id

/-! ## Values of other types -/

/-- A type that is written like another one. -/
@[reducible] def via [Storable β] (f : α → β) (g : β → α) (h : ∀ a, g (f a) = a) : Storable α where
  shape := shape β
  toValue a := toValue (f a)
  ofValue v := g (ofValue v)
  ofValue_toValue a := by rw [ofValue_toValue, h]

/-- Finitely many alternatives, each of which is written as its place in the list of all. -/
@[reducible] def ofAll [DecidableEq α] (all : List α) (mem : ∀ a, a ∈ all)
    (few : all.length ≤ Width.four.bound) : Storable α where
  shape := .choice all.length
  toValue a :=
    have hlt := List.idxOf_lt_length_iff.2 (mem a)
    ⟨all.idxOf a, hlt, Nat.lt_of_lt_of_le hlt few⟩
  ofValue i := all.get ⟨i.1, i.2.1⟩
  ofValue_toValue _ := List.getElem_idxOf _

instance : Storable UnitId := via UnitId.text UnitId.mk fun _ ↦ rfl

instance : Storable Scope := via (fun s ↦ (s.owner, s.name)) (fun p ↦ ⟨p.1, p.2⟩) fun _ ↦ rfl

instance : Storable ConfirmationMode :=
  ofAll ConfirmationMode.all (fun m ↦ by cases m <;> decide) (by decide)

instance : Storable Trace := ofAll Trace.all (fun t ↦ by cases t <;> decide) (by decide)

instance : Storable Settings :=
  via (fun s ↦ (s.incremental, s.confirmationMode)) (fun p ↦ ⟨p.1, p.2⟩) fun _ ↦ rfl

instance : Storable Checkpoint := via Checkpoint.bytes Checkpoint.mk fun _ ↦ rfl

end Storable

namespace Checkpoint

variable {α : Type} [Storable α]

/-- A value written down. -/
def of (a : α) : Checkpoint := ofValue (Storable.shape α) (Storable.toValue a)

/-- The value that was written down, if the bytes begin with one of the expected type. -/
def read? (c : Checkpoint) : Option α := (c.value? (Storable.shape α)).map Storable.ofValue

end Checkpoint

end ScopeGraphs
