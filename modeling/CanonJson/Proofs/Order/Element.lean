import CanonJson.Proofs.Layout.Shape
import CanonJson.Proofs.Order.Lex
/-!
# Comparing array items

Keys of different types are never compared, and `TypedKey.le` answers yes if they are. The rank in front
keeps them apart: on keys whose rank fits their type the comparison is a total preorder. Items that can be
printed all have such keys.
-/

namespace CanonJson

/-! ### Numbers -/

namespace NumberKey

theorem le_iff {a b : NumberKey} :
    a.le b = true ↔
    a.side < b.side ∨ a.side = b.side ∧ (a.point < b.point ∨ a.point = b.point ∧ lexLe id a.digits b.digits = true) := by
  rw [le]
  by_cases hside : a.side = b.side
  · by_cases hpoint : a.point = b.point
    · simp [hside, hpoint]
    · rcases Int.lt_or_gt_of_ne hpoint with hlt | hgt
      · simp [hside, hlt]
      · simp [hside, Int.not_lt.mpr (Int.le_of_lt hgt), hgt, hpoint]
  · rcases Nat.lt_or_gt_of_ne hside with hlt | hgt
    · simp [hlt]
    · simp [Nat.not_lt.mpr (Nat.le_of_lt hgt), hgt, hside]

theorem totalOn_le : TotalOn (fun _ => True) le where
  trans a b c _ _ _ := by
    intro hab hbc
    rw [le_iff] at *
    rcases hab with hab | ⟨hside, hab | ⟨hpoint, hab⟩⟩
    · exact .inl (by omega)
    · rcases hbc with hbc | ⟨hside', hbc⟩
      · exact .inl (by omega)
      · exact .inr ⟨by omega, .inl (by omega)⟩
    · rcases hbc with hbc | ⟨hside', hbc | ⟨hpoint', hbc⟩⟩
      · exact .inl (by omega)
      · exact .inr ⟨by omega, .inl (by omega)⟩
      · exact .inr ⟨by omega, .inr ⟨by omega, lexLe_trans hab hbc⟩⟩
  total a b _ _ := by
    rw [Bool.or_eq_true, le_iff, le_iff]
    have hdigits := @lexLe_total Nat id a.digits b.digits
    rw [Bool.or_eq_true] at hdigits
    rcases Nat.lt_trichotomy a.side b.side with hside | hside | hside
    · exact .inl (.inl hside)
    · rcases Int.lt_trichotomy a.point b.point with hpoint | hpoint | hpoint
      · exact .inl (.inr ⟨hside, .inl hpoint⟩)
      · rcases hdigits with h | h
        · exact .inl (.inr ⟨hside, .inr ⟨hpoint, h⟩⟩)
        · exact .inr (.inr ⟨hside.symm, .inr ⟨hpoint.symm, h⟩⟩)
      · exact .inr (.inr ⟨hside.symm, .inl hpoint⟩)
    · exact .inr (.inl hside)

end NumberKey

/-! ### Values of one type -/

namespace TypedKey

def kind : TypedKey → Nat
  | .null => 0
  | .bool _ => 1
  | .number _ => 2
  | .text _ => 3

theorem le_total (a b : TypedKey) : (a.le b || b.le a) = true := by
  cases a <;> cases b <;> try rfl
  case bool.bool a b => cases a <;> cases b <;> rfl
  case number.number a b => exact NumberKey.totalOn_le.total a b trivial trivial
  case text.text a b => exact lexLe_total a b

theorem le_trans {a b c : TypedKey} (hab : a.kind = b.kind) (hbc : b.kind = c.kind)
    (h : a.le b = true) (h' : b.le c = true) : a.le c = true := by
  cases a <;> cases b <;> simp only [kind, reduceCtorEq, Nat.reduceEqDiff] at hab <;>
    cases c <;> simp only [kind, reduceCtorEq, Nat.reduceEqDiff] at hbc
  · rfl
  · rename_i a b c
    cases a <;> cases b <;> cases c <;> simp_all [le]
  · exact NumberKey.totalOn_le.trans _ _ _ trivial trivial trivial h h'
  · exact lexLe_trans h h'

end TypedKey

/-! ### Items -/

namespace ElementKey

/-- The rank says which type the key has. -/
def Typed : ElementKey → Prop
  | .carries r k => k.kind = min r 3
  | .last => True

theorem carries_le_carries {r s : Nat} {a b : TypedKey} :
    (carries r a).le (carries s b) = true ↔ r < s ∨ r = s ∧ a.le b = true := by
  rw [le]
  rcases Nat.lt_trichotomy r s with hlt | rfl | hgt
  · simp [hlt]
  · simp
  · simp [Nat.not_lt.mpr (Nat.le_of_lt hgt), hgt, Nat.ne_of_gt hgt]

theorem totalOn_le : TotalOn Typed le where
  trans a b c ha hb hc := by
    intro hab hbc
    cases a with
    | last =>
      cases b with
      | last => exact hbc
      | carries s b => simp [le] at hab
    | carries r a =>
      cases c with
      | last => rfl
      | carries u c =>
        cases b with
        | last => simp [le] at hbc
        | carries s b =>
          rw [carries_le_carries] at *
          rcases hab with hab | ⟨rfl, hab⟩
          · exact .inl (by omega)
          · rcases hbc with hbc | ⟨rfl, hbc⟩
            · exact .inl hbc
            -- With one rank all three keys have one type.
            · exact .inr ⟨rfl, TypedKey.le_trans (ha.trans hb.symm) (hb.trans hc.symm) hab hbc⟩
  total a b _ _ := by
    cases a with
    | last => cases b <;> rfl
    | carries r a =>
      cases b with
      | last => rfl
      | carries s b =>
        have hkeys := TypedKey.le_total a b
        rw [Bool.or_eq_true] at hkeys ⊢
        rw [carries_le_carries, carries_le_carries]
        rcases Nat.lt_trichotomy r s with hlt | rfl | hgt
        · exact .inl (.inl hlt)
        · exact hkeys.imp (fun h => .inr ⟨rfl, h⟩) (fun h => .inr ⟨rfl, h⟩)
        · exact .inr (.inl hgt)

end ElementKey

/-! ### Keys of printable items -/

theorem typedKey_of_printable {v : Value} (hv : v.Printable) :
    ∃ r k, ElementKey.rank v = .ok r ∧ TypedKey.ofValue v = .ok k
      ∧ (ElementKey.carries r k).Typed := by
  have hindent : checkIndent LayoutOptions.compact.indent = .ok () := rfl
  cases v with
  | null => exact ⟨0, .null, rfl, rfl, rfl⟩
  | bool b => exact ⟨1, .bool b, rfl, rfl, rfl⟩
  | number t =>
    rw [Value.Printable] at hv
    obtain ⟨p, hp, -⟩ := exists_reduced_of_isNumeral hv
    refine ⟨2, .number (.ofParts p), rfl, ?_, rfl⟩
    rw [TypedKey.ofValue, hp]
  | string t => exact ⟨3, .text t, rfl, rfl, rfl⟩
  | array items =>
    have hrender := render_eq_ok hindent hv
    refine ⟨5, .text (Layout.documentShape .compact (.array items)), rfl, ?_, rfl⟩
    simp only [TypedKey.ofValue, hrender]
    rfl
  | object members =>
    have hrender := render_eq_ok hindent hv
    refine ⟨4, .text (Layout.documentShape .compact (.object members)), rfl, ?_, rfl⟩
    simp only [TypedKey.ofValue, hrender]
    rfl
  | foreign d => exact hv.elim

theorem typedKey_of_wellFormed {v : Value} (hv : v.WellFormed) :
    ∃ r k, ElementKey.rank v = .ok r ∧ TypedKey.ofValue v = .ok k
      ∧ (ElementKey.carries r k).Typed :=
  typedKey_of_printable hv.printable

theorem elementKey_of_printable (member : Text) {v : Value} (hv : v.Printable) :
    ∃ k, ElementKey.ofItem member v = .ok k ∧ k.Typed := by
  cases v with
  | object members =>
    rw [ElementKey.ofItem, Value.lookup]
    cases hfind : members.find? fun m => m.1 = member with
    | none => exact ⟨.last, rfl, trivial⟩
    | some m =>
      have hm := Value.printable_object.mp hv m (List.mem_of_find?_eq_some hfind)
      obtain ⟨r, k, hrank, hkey, htyped⟩ := typedKey_of_printable hm
      refine ⟨.carries r k, ?_, htyped⟩
      simp only [Option.map_some, hrank, hkey]
      rfl
  | _ => exact ⟨.last, rfl, trivial⟩

theorem elementKey_of_wellFormed (member : Text) {v : Value} (hv : v.WellFormed) :
    ∃ k, ElementKey.ofItem member v = .ok k ∧ k.Typed :=
  elementKey_of_printable member hv.printable

/-- The sort key of an item; an item without one goes last. -/
def elementKey (member : Text) (v : Value) : ElementKey :=
  match ElementKey.ofItem member v with
  | .ok k => k
  | .error _ => .last

theorem ofItem_eq_ok (member : Text) {v : Value} (hv : v.Printable) :
    ElementKey.ofItem member v = .ok (elementKey member v) := by
  obtain ⟨k, hk, -⟩ := elementKey_of_printable member hv
  rw [elementKey, hk]

theorem totalOn_elementKey (member : Text) :
    TotalOn Value.WellFormed fun a b => (elementKey member a).le (elementKey member b) := by
  apply ElementKey.totalOn_le.comap
  intro v hv
  obtain ⟨k, hk, htyped⟩ := elementKey_of_wellFormed member hv
  rwa [elementKey, hk]

theorem itemLe_iff (member : Text) {a b : Value} (ha : a.WellFormed) (hb : b.WellFormed) :
    ItemLe member a b ↔ (elementKey member a).le (elementKey member b) = true := by
  rw [ItemLe, ofItem_eq_ok member ha.printable, ofItem_eq_ok member hb.printable]
  constructor
  · intro h
    exact h _ _ rfl rfl
  · intro h ka kb hka hkb
    obtain rfl := Except.ok.inj hka
    obtain rfl := Except.ok.inj hkb
    exact h

end CanonJson
