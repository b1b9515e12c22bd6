import Mathlib

/-!
# Computations that may fail

What the result of a computation put together from others says about these.
-/

set_option autoImplicit false

namespace Patchbay

variable {α β γ ε : Type}

theorem ok_bind (a : α) (f : α → Except ε β) : (Except.ok a >>= f) = f a := rfl

theorem ok_of_bind {x : Except ε α} {f : α → Except ε β} {b : β}
    (h : x >>= f = .ok b) : ∃ a, x = .ok a ∧ f a = .ok b := by
  cases x with
  | error e => cases h
  | ok a => exact ⟨a, rfl, h⟩

theorem map_eq_ok {x : Except ε α} {f : α → γ} {c : γ} (h : x.map f = .ok c) :
    ∃ a, x = .ok a ∧ f a = c := by
  cases x with
  | error e => cases h
  | ok a => exact ⟨a, rfl, Except.ok.inj h⟩

/-- Two computations come to the same, as far as one looks at their results. -/
theorem map_eq_map {x : Except ε α} {y : Except ε β} {f : α → γ} {g : β → γ}
    (h : x.map f = y.map g) :
    (∃ e, x = .error e ∧ y = .error e) ∨ ∃ a b, x = .ok a ∧ y = .ok b ∧ f a = g b := by
  cases x with
  | error e =>
    cases y with
    | error e' =>
      cases h
      exact .inl ⟨e, rfl, rfl⟩
    | ok b => cases h
  | ok a =>
    cases y with
    | error e' => cases h
    | ok b =>
      rw [Except.map, Except.map, Except.ok.injEq] at h
      exact .inr ⟨a, b, rfl, rfl, h⟩

theorem mapM_ok_iff (f : α → Except ε β) (xs : List α) (ys : List β) :
    xs.mapM f = .ok ys ↔ List.Forall₂ (fun x y => f x = .ok y) xs ys := by
  induction xs generalizing ys with
  | nil =>
    rw [List.mapM_nil, List.forall₂_nil_left_iff]
    exact ⟨fun h => by cases h; rfl, fun h => by rw [h]; rfl⟩
  | cons x xs ih =>
    rw [List.mapM_cons, List.forall₂_cons_left_iff]
    constructor
    · intro h
      obtain ⟨y, hy, h⟩ := ok_of_bind h
      obtain ⟨zs, hzs, h⟩ := ok_of_bind h
      cases h
      exact ⟨y, zs, hy, (ih zs).1 hzs, rfl⟩
    · rintro ⟨y, zs, hy, hzs, rfl⟩
      rw [hy, (ih zs).2 hzs]
      rfl

/-- Why a computation has no result. -/
def cause? : Except ε α → Option ε
  | .ok _ => none
  | .error e => some e

theorem cause?_eq_some_iff {x : Except ε α} {e : ε} : cause? x = some e ↔ x = .error e := by
  cases x <;> simp [cause?]

theorem cause?_eq_none_iff {x : Except ε α} : cause? x = none ↔ ∃ a, x = .ok a := by
  cases x <;> simp [cause?]

/-- Of computations in a row the first one to fail is the one to blame. -/
theorem mapM_error_iff (f : α → Except ε β) (xs : List α) (e : ε) :
    xs.mapM f = .error e ↔ xs.findSome? (fun x => cause? (f x)) = some e := by
  induction xs with
  | nil => simp [pure, Except.pure]
  | cons x xs ih =>
    rw [List.mapM_cons, List.findSome?_cons]
    cases hx : f x with
    | error e' => simp [bind, Except.bind, cause?]
    | ok y =>
      rw [ok_bind, cause?, ← ih]
      cases xs.mapM f <;> simp [bind, Except.bind, pure, Except.pure]

theorem mapM_error {f : α → Except ε β} {xs : List α} {e : ε}
    (h : xs.mapM f = .error e) : ∃ x ∈ xs, f x = .error e := by
  obtain ⟨x, hx, he⟩ := List.exists_of_findSome?_eq_some ((mapM_error_iff f xs e).1 h)
  exact ⟨x, hx, cause?_eq_some_iff.1 he⟩

theorem bind_error_iff (x : Except ε Unit) (k : Unit → Except ε α) :
    (∃ e, x >>= k = .error e) ↔ (∃ e, x = .error e) ∨ ∃ e, k () = .error e := by
  cases x with
  | error e => exact ⟨fun _ => .inl ⟨e, rfl⟩, fun _ => ⟨e, rfl⟩⟩
  | ok => exact ⟨.inr, fun h => h.resolve_left fun ⟨_, h⟩ => by cases h⟩

theorem map_error_iff (x : Except ε α) (f : α → β) :
    (∃ e, x.map f = .error e) ↔ ∃ e, x = .error e := by
  cases x <;> simp [Except.map]

/-! ## Optional results -/

section Ensures

variable {x : Option α} {P : α → Prop}

/-- What is given, if anything is, has a property. -/
def Ensures (x : Option α) (P : α → Prop) : Prop := ∀ a, x = some a → P a

theorem ensures_none : Ensures none P := fun _ h => nomatch h

theorem ensures_some {a : α} (h : P a) : Ensures (some a) P := by
  rintro b ⟨⟩
  exact h

theorem Ensures.mono {Q : α → Prop} (h : Ensures x P) (hPQ : ∀ a, P a → Q a) : Ensures x Q :=
  fun a ha => hPQ a (h a ha)

theorem Ensures.bind {f : α → Option β} {Q : β → Prop} (h : Ensures x P)
    (hf : ∀ a, P a → Ensures (f a) Q) : Ensures (x >>= f) Q := by
  intro b hb
  obtain ⟨a, ha, hb⟩ := Option.bind_eq_some_iff.1 hb
  exact hf a (h a ha) b hb

theorem ensures_bind {f : α → Option β} {Q : β → Prop} (hf : ∀ a, Ensures (f a) Q) :
    Ensures (x >>= f) Q := Ensures.bind (P := fun _ => True) (fun _ _ => trivial) fun a _ => hf a

theorem Ensures.map {f : α → β} {Q : β → Prop} (h : Ensures x P) (hf : ∀ a, P a → Q (f a)) :
    Ensures (f <$> x) Q := by
  intro b hb
  obtain ⟨a, ha, rfl⟩ := Option.map_eq_some_iff.1 hb
  exact hf a (h a ha)

theorem ensures_mapM {f : α → Option β} {R : α → β → Prop} (xs : List α)
    (h : ∀ a ∈ xs, Ensures (f a) (R a)) :
    Ensures (xs.mapM f) fun ys => ∀ b ∈ ys, ∃ a ∈ xs, R a b := by
  induction xs with
  | nil => exact ensures_some (by simp)
  | cons a xs ih =>
    rw [List.mapM_cons]
    refine (h a (by simp)).bind fun b hb => ?_
    refine (ih fun c hc => h c (by simp [hc])).bind fun ys hys => ensures_some ?_
    rw [List.forall_mem_cons]
    exact ⟨⟨a, by simp, hb⟩, fun c hc => (hys c hc).imp fun d hd => ⟨by simp [hd.1], hd.2⟩⟩

theorem ensures_foldlM {f : β → α → Option β} {I : β → Prop} (xs : List α) (b : β) (hb : I b)
    (h : ∀ a ∈ xs, ∀ b, I b → Ensures (f b a) I) : Ensures (xs.foldlM f b) I := by
  induction xs generalizing b with
  | nil => exact ensures_some hb
  | cons a xs ih =>
    rw [List.foldlM_cons]
    exact (h a (by simp) b hb).bind fun c hc => ih c hc fun d hd => h d (by simp [hd])

end Ensures

end Patchbay
