import Versioning.Identifier

/-!
# Tags

A tag is a non-empty list of identifiers, written with dots between them. A
version may carry two: one in the pre-release slot, such as `rc.1`, and one in
the build slot, such as `build.11.e0f985a`. Both slots hold the same kind of
value; what differs is where it is written and whether it counts in precedence.
-/

namespace Versioning

/-- The two places at which a version may carry a tag. -/
inductive Slot where
  | preRelease
  | build
deriving DecidableEq, Repr

namespace Slot

/-- What the tag in a slot is called. -/
def title : Slot → String
  | .preRelease => "pre-release version"
  | .build => "build metadata"

end Slot

/-- A non-empty list of identifiers. -/
@[ext] structure Tag where
  identifiers : List Identifier
  ne_nil : identifiers ≠ []
deriving DecidableEq

namespace Tag

/-- The tag of one identifier. -/
def singleton (i : Identifier) : Tag := ⟨[i], by simp⟩

/-- The tag with one more identifier in front. -/
def cons (i : Identifier) (t : Tag) : Tag := ⟨i :: t.identifiers, by simp⟩

@[simp] theorem identifiers_singleton (i : Identifier) : (singleton i).identifiers = [i] := rfl

@[simp] theorem identifiers_cons (i : Identifier) (t : Tag) :
    (t.cons i).identifiers = i :: t.identifiers := rfl

/-- Identifiers are compared one by one; of two tags of which one starts with the other, the
shorter comes first. -/
instance : Ord Tag := ⟨fun a b => List.compareLex compare a.identifiers b.identifiers⟩

instance : LT Tag := ltOfOrd

instance : LE Tag := leOfOrd

/-- The last identifier is replaced by the next number if it is numeric; otherwise counting
starts with a further identifier `1`. -/
def increment (t : Tag) : Tag :=
  match (t.identifiers.getLast t.ne_nil).digits? with
  | some r => ⟨t.identifiers.dropLast ++ [.ofDigits (Decimal.next r)], by simp⟩
  | none => ⟨t.identifiers ++ [.ofNat 1], by simp⟩

/-- The keys of the identifiers: all that the order on tags sees. -/
def key (t : Tag) : List (List Char) := t.identifiers.map Identifier.key

/-- The text of a tag: its identifiers, with dots between them. -/
def chars (t : Tag) : List Char := ['.'].intercalate (t.identifiers.map fun i => i.chars)

@[simp] theorem chars_singleton (i : Identifier) : (singleton i).chars = i.chars := by
  simp [chars, singleton, List.intercalate]

theorem chars_cons (i : Identifier) (t : Tag) : (t.cons i).chars = i.chars ++ '.' :: t.chars := by
  obtain ⟨identifiers, hNe⟩ := t
  cases identifiers with
  | nil => exact absurd rfl hNe
  | cons j rest => simp [chars, cons, List.intercalate]

/-- The text of a tag as a string. -/
def text (t : Tag) : String := String.ofList t.chars

end Tag

end Versioning
