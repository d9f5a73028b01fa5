/-!
# Computations that may fail

What a step of a computation contributes to its success, and when a step applied to every element of a
list succeeds.
-/

namespace CanonJson

variable {ε α β : Type}

theorem map_eq_ok_iff {x : Except ε α} {f : α → β} {b : β} :
    x.map f = .ok b ↔ ∃ a, x = .ok a ∧ f a = b := by
  cases x <;> simp [Except.map]

theorem map_eq_error_iff {x : Except ε α} {f : α → β} {e : ε} :
    x.map f = .error e ↔ x = .error e := by
  cases x <;> simp [Except.map]

theorem bind_eq_ok_iff {x : Except ε α} {f : α → Except ε β} {b : β} :
    x >>= f = .ok b ↔ ∃ a, x = .ok a ∧ f a = .ok b := by
  cases x <;> simp [bind, Except.bind]

theorem bind_eq_error_iff {x : Except ε α} {f : α → Except ε β} {e : ε} :
    x >>= f = .error e ↔ x = .error e ∨ ∃ a, x = .ok a ∧ f a = .error e := by
  cases x <;> simp [bind, Except.bind]

theorem map_bind {γ : Type} (x : Except ε α) (f : α → Except ε β) (g : β → γ) :
    (x >>= f).map g = x >>= fun a => (f a).map g := by
  cases x <;> rfl

@[simp] theorem ok_bind (a : α) (f : α → Except ε β) : (Except.ok a >>= f) = f a :=
  rfl

@[simp] theorem error_bind (e : ε) (f : α → Except ε β) : (Except.error e >>= f) = .error e :=
  rfl

/-- If a step succeeds on every element, it succeeds on the list, element by element. -/
theorem mapM_eq_ok {f : α → Except ε β} {g : α → β} {l : List α} (h : ∀ a ∈ l, f a = .ok (g a)) :
    l.mapM f = .ok (l.map g) := by
  induction l with
  | nil => rfl
  | cons a l ih =>
    rw [List.mapM_cons, h a (by simp), ih fun b hb => h b (by simp [hb])]
    rfl

/-- If a step succeeds on a list, it succeeds at every place of it. -/
theorem places_of_mapM {f : α → Except ε β} {l : List α} {bs : List β} (h : l.mapM f = .ok bs) :
    l.length = bs.length ∧ ∀ (k : Nat) a b, l[k]? = some a → bs[k]? = some b → f a = .ok b := by
  induction l generalizing bs with
  | nil =>
    obtain rfl := Except.ok.inj h
    simp
  | cons a l ih =>
    rw [List.mapM_cons] at h
    obtain ⟨b, hb, h⟩ := bind_eq_ok_iff.mp h
    obtain ⟨bs', hbs, h⟩ := bind_eq_ok_iff.mp h
    obtain rfl := Except.ok.inj h
    obtain ⟨hlength, hplaces⟩ := ih hbs
    refine ⟨by rw [List.length_cons, List.length_cons, hlength], fun k a' b' ha' hb' => ?_⟩
    cases k with
    | zero =>
      obtain rfl := Option.some.inj ha'
      obtain rfl := Option.some.inj hb'
      exact hb
    | succ k => exact hplaces k a' b' ha' hb'

/-- If a step fails on a list, it fails on one of its elements. -/
theorem exists_of_mapM_error {f : α → Except ε β} {l : List α} {e : ε} (h : l.mapM f = .error e) :
    ∃ a ∈ l, f a = .error e := by
  induction l with
  | nil => cases h
  | cons a l ih =>
    rw [List.mapM_cons] at h
    cases ha : f a with
    | error e' =>
      rw [ha] at h
      obtain rfl := Except.error.inj h
      exact ⟨a, by simp, ha⟩
    | ok b =>
      rw [ha, ok_bind] at h
      cases hl : l.mapM f with
      | error e' =>
        rw [hl] at h
        obtain rfl := Except.error.inj h
        obtain ⟨a', hmem, ha'⟩ := ih hl
        exact ⟨a', List.mem_cons_of_mem a hmem, ha'⟩
      | ok bs =>
        rw [hl] at h
        cases h

/-! ### What results and problems are like -/

/-- A result has the one property, and a problem the other. -/
def GivesOrFails (R : α → Prop) (Q : ε → Prop) : Except ε α → Prop
  | .ok a => R a
  | .error e => Q e

section GivesOrFails

variable {R : α → Prop} {S : β → Prop} {Q : ε → Prop}

theorem GivesOrFails.bind {x : Except ε α} {f : α → Except ε β} (hx : GivesOrFails R Q x)
    (hf : ∀ a, R a → GivesOrFails S Q (f a)) : GivesOrFails S Q (x >>= f) := by
  cases x with
  | ok a => exact hf a hx
  | error e => exact hx

theorem GivesOrFails.mapM {f : α → Except ε β} {l : List α} (h : ∀ a ∈ l, GivesOrFails S Q (f a)) :
    GivesOrFails (fun bs => ∀ b ∈ bs, S b) Q (l.mapM f) := by
  induction l with
  | nil => exact List.forall_mem_nil S
  | cons a l ih =>
    obtain ⟨ha, hl⟩ := List.forall_mem_cons.mp h
    rw [List.mapM_cons]
    exact ha.bind fun b hb => (ih hl).bind fun bs hbs => List.forall_mem_cons.mpr ⟨hb, hbs⟩

end GivesOrFails

/-! ### Steps that give something or nothing -/

theorem mapM_cons_eq_some_iff {f : α → Option β} {a : α} {l : List α} {bs : List β} :
    (a :: l).mapM f = some bs ↔ ∃ b bs', f a = some b ∧ l.mapM f = some bs' ∧ b :: bs' = bs := by
  rw [List.mapM_cons]
  cases f a <;> cases l.mapM f <;> simp

theorem isSome_mapM {f : α → Option β} {l : List α} :
    (l.mapM f).isSome = true ↔ ∀ a ∈ l, (f a).isSome = true := by
  induction l with
  | nil => simp
  | cons a l ih =>
    rw [List.forall_mem_cons, ← ih, List.mapM_cons]
    cases f a <;> cases l.mapM f <;> simp

/-- Both halves of pairs that are dealt with from left to right. -/
theorem halves_of_mapM {f : α → Option β} {es : List (α × α)} {ds : List (β × β)}
    (h : es.mapM (fun (k, v) => do return (← f k, ← f v)) = some ds) :
    (es.map Prod.fst).mapM f = some (ds.map Prod.fst) ∧ (es.map Prod.snd).mapM f = some (ds.map Prod.snd) := by
  induction es generalizing ds with
  | nil =>
    obtain rfl := Option.some.inj h
    exact ⟨rfl, rfl⟩
  | cons e es ih =>
    obtain ⟨d, ds, hd, hds, rfl⟩ := mapM_cons_eq_some_iff.mp h
    simp only [bind, Option.bind_eq_some_iff, pure, Option.some.injEq] at hd
    obtain ⟨k, hk, v, hv, rfl⟩ := hd
    obtain ⟨hkeys, hvalues⟩ := ih hds
    simp [hk, hv, hkeys, hvalues]

end CanonJson
