import Mathlib.Data.List.Forall2

/-! # Lists that correspond, and checks of lists -/

namespace Shading

variable {α β γ ε : Type} {R : α → β → Prop} {xs : List α} {ys : List β}

/-- What relates to one of a list that corresponds. -/
theorem exists_mem_of_forall₂ (h : List.Forall₂ R xs ys) {x : α} (hx : x ∈ xs) : ∃ y ∈ ys, R x y := by
  obtain ⟨i, hi, rfl⟩ := List.getElem_of_mem hx
  have hi' : i < ys.length := h.length_eq ▸ hi
  exact ⟨ys[i], List.getElem_mem hi', h.get hi hi'⟩

/-- At each place there are items that correspond, or none. -/
theorem getElem?_of_forall₂ (h : List.Forall₂ R xs ys) (n : Nat) :
    (xs[n]? = none ∧ ys[n]? = none) ∨ ∃ x y, xs[n]? = some x ∧ ys[n]? = some y ∧ R x y := by
  by_cases hn : n < xs.length
  · have hn' : n < ys.length := h.length_eq ▸ hn
    exact Or.inr ⟨xs[n], ys[n], List.getElem?_eq_getElem hn, List.getElem?_eq_getElem hn', h.get hn hn'⟩
  · have hn' : ¬n < ys.length := h.length_eq ▸ hn
    exact Or.inl ⟨List.getElem?_eq_none (Nat.le_of_not_lt hn), List.getElem?_eq_none (Nat.le_of_not_lt hn')⟩

theorem map_eq_of_forall₂ {f : α → γ} {g : β → γ} (h : List.Forall₂ R xs ys)
    (hR : ∀ a b, R a b → g b = f a) : ys.map g = xs.map f := by
  induction h with
  | nil => rfl
  | cons hab _ ih => rw [List.map_cons, List.map_cons, ih, hR _ _ hab]

theorem flatMap_eq_of_forall₂ {f : α → List γ} {g : β → List γ} (h : List.Forall₂ R xs ys)
    (hR : ∀ a b, R a b → g b = f a) : ys.flatMap g = xs.flatMap f := by
  rw [List.flatMap_def, List.flatMap_def, map_eq_of_forall₂ h hR]

/-! ### Checks -/

theorem bind_eq_ok {x : Except ε α} {f : α → Except ε β} {r : β} :
    (x >>= f) = .ok r ↔ ∃ a, x = .ok a ∧ f a = .ok r := by
  cases x with
  | error e => simp [bind, Except.bind]
  | ok a => simp [bind, Except.bind]

theorem forM_eq_ok {f : α → Except ε Unit} :
    xs.forM f = .ok () ↔ ∀ a ∈ xs, f a = .ok () := by
  induction xs with
  | nil => simp [List.forM, pure, Except.pure]
  | cons a xs ih =>
      show (f a >>= fun _ => xs.forM f) = .ok () ↔ _
      rw [bind_eq_ok, ih, List.forall_mem_cons]
      constructor
      · rintro ⟨⟨⟩, ha, hxs⟩
        exact ⟨ha, hxs⟩
      · rintro ⟨ha, hxs⟩
        exact ⟨(), ha, hxs⟩

/-- Checking a list fails with the fault of the first item that fails. -/
theorem forM_eq_error {f : α → Except ε Unit} {e : ε} :
    xs.forM f = .error e ↔
      ∃ front x back, xs = front ++ x :: back ∧ (∀ y ∈ front, f y = .ok ()) ∧ f x = .error e := by
  induction xs with
  | nil => simp [List.forM, pure, Except.pure]
  | cons a xs ih =>
      show (f a >>= fun _ => xs.forM f) = .error e ↔ _
      cases ha : f a with
      | error e' =>
          constructor
          · intro h
            cases h
            exact ⟨[], a, xs, rfl, List.forall_mem_nil _, ha⟩
          · rintro ⟨front, x, back, hxs, hfront, hx⟩
            cases front with
            | nil =>
                cases hxs
                rw [ha] at hx
                cases hx
                rfl
            | cons y front =>
                cases hxs
                rw [hfront a List.mem_cons_self] at ha
                cases ha
      | ok u =>
          show xs.forM f = .error e ↔ _
          rw [ih]
          constructor
          · rintro ⟨front, x, back, rfl, hfront, hx⟩
            exact ⟨a :: front, x, back, rfl, List.forall_mem_cons.mpr ⟨ha, hfront⟩, hx⟩
          · rintro ⟨front, x, back, hxs, hfront, hx⟩
            cases front with
            | nil =>
                cases hxs
                rw [ha] at hx
                cases hx
            | cons y front =>
                cases hxs
                exact ⟨front, x, back, rfl, fun z hz => hfront z (List.mem_cons_of_mem _ hz), hx⟩

theorem forM_flatMap {f : α → Except ε Unit} {g : β → List α} (xs : List β) :
    (xs.flatMap g).forM f = xs.forM fun x => (g x).forM f := by
  induction xs with
  | nil => rfl
  | cons x xs ih =>
      simp only [List.forM_eq_forM] at ih ⊢
      rw [List.flatMap_cons, List.forM_append, List.forM_cons, ih]

end Shading
