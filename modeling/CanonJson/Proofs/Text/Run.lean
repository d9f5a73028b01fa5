import CanonJson.Text.CodePoint
/-!
# Runs of code points

The readers take the longest run of some class of code points from the front of what is left. Where a
run stops is a fact about the first code point behind it, so every statement about a reader that goes
on "up to here" says so by `Halts`.
-/

namespace CanonJson

namespace CodePoint

@[simp] theorem is_ofChar_self (ch : Char) : (ofChar ch).is ch = true :=
  is_iff.mpr rfl

theorem is_eq_false_iff {c : CodePoint} {ch : Char} : c.is ch = false ↔ c ≠ ofChar ch := by
  rw [← Bool.not_eq_true, is_iff]

theorem eq_of_val_eq {a b : CodePoint} (h : a.val = b.val) : a = b := by
  cases a
  cases b
  simpa using h

theorem ofNat_val (c : CodePoint) : ofNat c.val = c := by
  rw [ofNat, dif_pos c.val_lt]

theorem val_ofNat {n : Nat} (h : n < 0x110000) : (ofNat n).val = n := by
  rw [ofNat, dif_pos h]

end CodePoint

namespace Text

/-- No run of `p` goes on into the text: it is empty, or its first code point is outside `p`. -/
def Halts (p : CodePoint → Bool) (t : Text) : Prop :=
  ∀ c ∈ t.head?, p c = false

variable {p q : CodePoint → Bool}

@[simp] theorem halts_nil : Halts p [] := by
  simp [Halts]

@[simp] theorem halts_cons {c : CodePoint} {t : Text} : Halts p (c :: t) ↔ p c = false := by
  simp [Halts]

theorem Halts.append {t rest : Text} (ht : Halts p t) (hrest : t = [] → Halts p rest) :
    Halts p (t ++ rest) := by
  cases t with
  | nil => exact hrest rfl
  | cons c t => simpa using ht

theorem Halts.mono {t : Text} (h : Halts p t) (hsub : ∀ c, q c = true → p c = true) :
    Halts q t := by
  intro c hc
  have hp := h c hc
  cases hq : q c with
  | false => rfl
  | true => rw [hsub c hq] at hp; exact hp

theorem halts_dropWhile (p : CodePoint → Bool) (t : Text) : Halts p (t.dropWhile p) := by
  intro c hc
  have h := List.head?_dropWhile_not p t
  rw [Option.mem_def.mp hc] at h
  simpa using h

/-- A run in front of a text that halts it is exactly what the reader takes. -/
theorem takeWhile_append_of_halts {run rest : Text} (hrun : ∀ c ∈ run, p c = true)
    (hrest : Halts p rest) : (run ++ rest).takeWhile p = run := by
  rw [List.takeWhile_append_of_pos hrun]
  cases rest with
  | nil => simp
  | cons c rest => rw [List.takeWhile_cons_of_neg (by simpa using hrest), List.append_nil]

/-- A run in front of a text that halts it is exactly what the reader leaves out. -/
theorem dropWhile_append_of_halts {run rest : Text} (hrun : ∀ c ∈ run, p c = true)
    (hrest : Halts p rest) : (run ++ rest).dropWhile p = rest := by
  rw [List.dropWhile_append_of_pos hrun]
  cases rest with
  | nil => simp
  | cons c rest => rw [List.dropWhile_cons_of_neg (by simpa using hrest)]

end Text

end CanonJson
