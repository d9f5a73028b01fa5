import CanonJson.Value.WellFormed
/-!
# Trees that mean the same

Two trees are equivalent up to a relation on their leaves if their arrays agree item by item and their
objects key by key: for each key both have the same number of values, equivalent in pairs, in member
order. The order of members with different keys does not count, repeated keys do.
-/

namespace CanonJson.Value

/-- The values under a key, in member order. -/
def under (key : Text) (members : List (Text × Value)) : List Value :=
  (members.filter fun m => m.1 = key).map Prod.snd

/-- Number texts of the same exact value. -/
def SameNumber (a b : Text) : Prop :=
  NumberParts.ofText? a = NumberParts.ofText? b

mutual

/-- The trees agree up to the order of members with different keys, and up to `same` on number text. -/
inductive Equivalent (same : Text → Text → Prop) : Value → Value → Prop where
  | null : Equivalent same .null .null
  | bool (b : Bool) : Equivalent same (.bool b) (.bool b)
  | number (a b : Text) (h : same a b) : Equivalent same (.number a) (.number b)
  | string (t : Text) : Equivalent same (.string t) (.string t)
  | array (as bs : List Value) (h : EquivalentItems same as bs) :
      Equivalent same (.array as) (.array bs)
  | object (as bs : List (Text × Value))
      (h : ∀ key, EquivalentItems same (under key as) (under key bs)) :
      Equivalent same (.object as) (.object bs)

inductive EquivalentItems (same : Text → Text → Prop) : List Value → List Value → Prop where
  | nil : EquivalentItems same [] []
  | cons (a b : Value) (as bs : List Value) (first : Equivalent same a b)
      (more : EquivalentItems same as bs) : EquivalentItems same (a :: as) (b :: bs)

end

end CanonJson.Value
