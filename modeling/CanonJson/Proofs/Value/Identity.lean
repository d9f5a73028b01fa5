import CanonJson.Proofs.Value.Token
/-!
# Comparing trees node by node

Trees are compared through their token streams. What this comparison is to find out is whether they are
identical: nodes of the same kind at the same places, with the same contents, keys and number of children.
Since a stream can be taken off the front of other tokens in one way only, the streams of different trees
differ, and neither is the beginning of the other.
-/

namespace CanonJson.Value

/-- The trees are the same node by node. -/
inductive Identical : Value → Value → Prop where
  | null : Identical .null .null
  | bool (b : Bool) : Identical (.bool b) (.bool b)
  | number (t : Text) : Identical (.number t) (.number t)
  | string (t : Text) : Identical (.string t) (.string t)
  | array (as bs : List Value) (arity : as.length = bs.length)
      (items : ∀ (i : Nat) a b, as[i]? = some a → bs[i]? = some b → Identical a b) :
      Identical (.array as) (.array bs)
  | object (as bs : List (Text × Value)) (arity : as.length = bs.length)
      (keys : ∀ (i : Nat) m n, as[i]? = some m → bs[i]? = some n → m.1 = n.1)
      (values : ∀ (i : Nat) m n, as[i]? = some m → bs[i]? = some n → Identical m.2 n.2) :
      Identical (.object as) (.object bs)

theorem eq_of_places {α : Type} {as bs : List α} (arity : as.length = bs.length)
    (h : ∀ (i : Nat) a b, as[i]? = some a → bs[i]? = some b → a = b) : as = bs := by
  refine List.ext_getElem arity fun i hi hi' => ?_
  exact h i _ _ (List.getElem?_eq_getElem hi) (List.getElem?_eq_getElem hi')

theorem Identical.eq {a b : Value} (h : Identical a b) : a = b := by
  induction h with
  | null => rfl
  | bool b => rfl
  | number t => rfl
  | string t => rfl
  | array as bs arity _ ih => rw [eq_of_places arity ih]
  | object as bs arity keys _ ih =>
    rw [eq_of_places arity]
    intro i m n hm hn
    exact Prod.ext (keys i m n hm hn) (ih i m n hm hn)

theorem Native.identical {v : Value} (hv : v.Native) : Identical v v := by
  induction v using childInduction with
  | null => exact .null
  | bool b => exact .bool b
  | number t => exact .number t
  | string t => exact .string t
  | array items ih =>
    refine .array items items rfl ?_
    intro i a b ha hb
    obtain rfl := Option.some.inj (ha.symm.trans hb)
    have hmem := List.mem_of_getElem? ha
    exact ih a hmem fun d h => hv d (.item hmem h)
  | object members ih =>
    have hsame : ∀ {i : Nat} {m n : Text × Value}, members[i]? = some m → members[i]? = some n → m = n :=
      fun hm hn => Option.some.inj (hm.symm.trans hn)
    refine .object members members rfl (fun i m n hm hn => by rw [hsame hm hn]) ?_
    intro i m n hm hn
    obtain rfl := hsame hm hn
    have hmem := List.mem_of_getElem? hm
    exact ih m hmem fun d h => hv d (.member hmem h)
  | foreign d => exact absurd .self (hv d)

theorem identical_iff_eq {a b : Value} (ha : a.Native) : Identical a b ↔ a = b := by
  constructor
  · exact Identical.eq
  · rintro rfl
    exact ha.identical

/-- No stream is the beginning of another one. -/
theorem eq_of_isPrefix_tokens {a b : Value} (h : a.tokens <+: b.tokens) : a = b := by
  obtain ⟨rest, hrest⟩ := h
  rw [tokens_eq_stream, tokens_eq_stream] at hrest
  have happend : a.stream ++ rest = b.stream ++ [] := by
    rw [hrest, List.append_nil]
  exact (separable a b rest [] happend).1

/-- Comparing a tree of JSON values with another one by their streams, or as values, gives the same verdict:
whether they are identical. This is also what it means for the streams to be equal, and if one stream begins
with the other then they are. -/
theorem treeEqual?_iff_identical (a b : Value) (ha : a.Native) :
    (∃ verdict, a.treeEqual? b = .ok verdict ∧ a.equal? b = .ok verdict
        ∧ (verdict = true ↔ Identical a b))
      ∧ (a.tokens = b.tokens ↔ Identical a b)
      ∧ (a.tokens <+: b.tokens → a.tokens = b.tokens)
      ∧ (b.tokens <+: a.tokens → b.tokens = a.tokens) := by
  simp only [identical_iff_eq ha]
  refine ⟨?_, ?_, ?_, ?_⟩
  · obtain ⟨verdict, hverdict, hiff⟩ := treeEqual?_of_native ha b
    obtain ⟨verdict', hverdict', hiff'⟩ := equal?_of_native ha b
    obtain rfl : verdict = verdict' := Bool.eq_iff_iff.mpr (hiff.trans hiff'.symm)
    exact ⟨verdict, hverdict, hverdict', hiff⟩
  · constructor
    · intro h
      exact eq_of_isPrefix_tokens (h ▸ List.prefix_refl _)
    · exact congrArg tokens
  · intro h
    rw [eq_of_isPrefix_tokens h]
  · intro h
    rw [eq_of_isPrefix_tokens h]

/-- The same scalars and keys in the same order, but the inner array ends in another place. -/
theorem treeEqual?_iff_identical_shifted :
    let k : Text := Text.ofChars ['k']
    let a : Value := .array [.array [.string k], .object [(k, .null)]]
    let b : Value := .array [.array [], .string k, .object [(k, .null)]]
    a.Native ∧ a.treeEqual? a = .ok true ∧ a.equal? a = .ok true
      ∧ a.treeEqual? b = .ok false ∧ a.equal? b = .ok false := by
  intro k a b
  have hk : k.SurrogateFree := by decide
  have hwell : a.WellFormed := ⟨⟨hk, trivial⟩, ⟨hk, trivial, trivial⟩, trivial⟩
  have ha : a.Native := hwell.native
  obtain ⟨⟨same, htree, hequal, hiff⟩, -⟩ := treeEqual?_iff_identical a a ha
  obtain ⟨⟨other, htree', hequal', hiff'⟩, -⟩ := treeEqual?_iff_identical a b ha
  have hsame : same = true := hiff.mpr ha.identical
  have hother : other = false := by
    refine Bool.eq_false_iff.mpr fun h => ?_
    have hab := (hiff'.mp h).eq
    simp [a, b] at hab
  rw [hsame] at htree hequal
  rw [hother] at htree' hequal'
  exact ⟨ha, htree, hequal, htree', hequal'⟩

end CanonJson.Value
