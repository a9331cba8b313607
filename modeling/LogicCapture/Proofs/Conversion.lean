import Mathlib

/-!
# Converting one after the other

A list is converted element by element, up to the first that cannot be converted. The results then
stand in the order of the elements, and there are results if each element has one.
-/

namespace LogicCapture

variable {ε α β : Type} {f g : α → Except ε β}

theorem mapM_eq_ok_iff {xs : List α} {ys : List β} :
    xs.mapM f = .ok ys ↔ List.Forall₂ (fun x y => f x = .ok y) xs ys := by
  induction xs generalizing ys with
  | nil =>
      rw [List.mapM_nil, List.forall₂_nil_left_iff]
      exact ⟨fun h => (Except.ok.inj h).symm, fun h => h ▸ rfl⟩
  | cons x xs ih =>
      rw [List.mapM_cons]
      constructor
      · intro h
        cases hx : f x with
        | error e => rw [hx] at h; cases h
        | ok y =>
            cases hxs : xs.mapM f with
            | error e => rw [hx, hxs] at h; cases h
            | ok rest =>
                rw [hx, hxs] at h
                obtain rfl := Except.ok.inj h
                exact .cons hx (ih.mp hxs)
      · rintro (_ | ⟨hx, hxs⟩)
        rw [hx, ih.mpr hxs]
        rfl

theorem mapM_eq_ok_map {xs : List α} {k : α → β} (h : ∀ x ∈ xs, f x = .ok (k x)) :
    xs.mapM f = .ok (xs.map k) :=
  mapM_eq_ok_iff.mpr (List.forall₂_map_right_iff.mpr (List.forall₂_same.mpr h))

theorem exists_mapM_eq_ok_iff {xs : List α} :
    (∃ ys, xs.mapM f = .ok ys) ↔ ∀ x ∈ xs, ∃ y, f x = .ok y := by
  simp only [mapM_eq_ok_iff]
  induction xs with
  | nil => exact ⟨fun _ x hx => absurd hx List.not_mem_nil, fun _ => ⟨[], .nil⟩⟩
  | cons x xs ih =>
      rw [List.forall_mem_cons, ← ih]
      constructor
      · rintro ⟨_, _ | ⟨hx, hxs⟩⟩
        exact ⟨⟨_, hx⟩, _, hxs⟩
      · rintro ⟨⟨y, hx⟩, ys, hxs⟩
        exact ⟨y :: ys, .cons hx hxs⟩

theorem mapM_append_eq_ok_iff {xs xs' : List α} {ys : List β} :
    (xs ++ xs').mapM f = .ok ys ↔
      ∃ us vs, xs.mapM f = .ok us ∧ xs'.mapM f = .ok vs ∧ ys = us ++ vs := by
  rw [List.mapM_append]
  constructor
  · intro h
    cases hxs : xs.mapM f with
    | error e => rw [hxs] at h; cases h
    | ok us =>
        cases hxs' : xs'.mapM f with
        | error e => rw [hxs, hxs'] at h; cases h
        | ok vs =>
            rw [hxs, hxs'] at h
            exact ⟨us, vs, rfl, rfl, (Except.ok.inj h).symm⟩
  · rintro ⟨us, vs, hxs, hxs', rfl⟩
    rw [hxs, hxs']
    rfl

theorem mapM_congr_of_mem {xs : List α} (h : ∀ x ∈ xs, f x = g x) : xs.mapM f = xs.mapM g := by
  induction xs with
  | nil => rfl
  | cons x xs ih =>
      rw [List.mapM_cons, List.mapM_cons, h x List.mem_cons_self,
        ih fun y hy => h y (List.mem_cons_of_mem x hy)]

theorem foldlM_eq_ok {step : β → α → Except ε β} {k : β → α → β} {xs : List α}
    (h : ∀ x ∈ xs, ∀ b, step b x = .ok (k b x)) (b : β) :
    xs.foldlM step b = .ok (xs.foldl k b) := by
  induction xs generalizing b with
  | nil => rfl
  | cons x xs ih =>
      rw [List.foldlM_cons, List.foldl_cons, h x List.mem_cons_self]
      exact ih (fun y hy => h y (List.mem_cons_of_mem x hy)) _

theorem flatten_mapM_mapM {xss : List (List α)} :
    List.flatten <$> xss.mapM (fun xs => xs.mapM f) = xss.flatten.mapM f := by
  induction xss with
  | nil => rfl
  | cons xs xss ih =>
      rw [List.flatten_cons, List.mapM_append, ← ih, List.mapM_cons]
      cases xs.mapM f with
      | error e => rfl
      | ok ys =>
          cases xss.mapM (fun xs => xs.mapM f) with
          | error e => rfl
          | ok yss => rfl

end LogicCapture
