/-
AssetAudit/Proofs/Outcomes.lean

Computations that may fail: what it means that one comes to a result.

The lemmas are inversions.  A result of a chain of steps, or of a step for
each element of a list, comes with the results of the steps.  A list fails
with its first failure, and so does a loop over it (`foldlM_eq_map_mapM`).
-/
namespace AssetAudit

variable {ε α β : Type}

theorem Except.map_eq_ok_iff {x : Except ε α} {f : α → β} {b : β} :
    x.map f = .ok b ↔ ∃ a, x = .ok a ∧ f a = b := by
  cases x with
  | error e => simp [Except.map]
  | ok a => simp [Except.map]

theorem Except.ok_bind (a : α) (f : α → Except ε β) : (.ok a >>= f : Except ε β) = f a := rfl

theorem Except.bind_eq_ok_iff {x : Except ε α} {f : α → Except ε β} {b : β} :
    x >>= f = .ok b ↔ ∃ a, x = .ok a ∧ f a = .ok b := by
  cases x with
  | error e => simp [bind, Except.bind]
  | ok a => simp [bind, Except.bind]

theorem Except.map_eq_error_iff {x : Except ε α} {f : α → β} {e : ε} :
    x.map f = .error e ↔ x = .error e := by
  cases x with
  | error d => simp [Except.map]
  | ok a => simp [Except.map]

theorem Except.bind_eq_error_iff {x : Except ε α} {f : α → Except ε β} {e : ε} :
    x >>= f = .error e ↔ x = .error e ∨ ∃ a, x = .ok a ∧ f a = .error e := by
  cases x with
  | error d => simp [bind, Except.bind]
  | ok a => simp [bind, Except.bind]

/-- Where the last step cannot fail, the one before it has. -/
theorem Except.eq_error_of_bind_pure {x : Except ε α} {f : α → β} {e : ε}
    (h : (x >>= fun a => pure (f a)) = .error e) : x = .error e := by
  rcases Except.bind_eq_error_iff.mp h with hx | ⟨_, _, past⟩
  · exact hx
  · cases past

/-- A chain of steps does not fail in a way in which no step fails. -/
theorem Except.bind_ne_error {x : Except ε α} {f : α → Except ε β} {e : ε} (hx : x ≠ .error e)
    (hf : ∀ a, f a ≠ .error e) : x >>= f ≠ .error e := by
  cases x with
  | error d => exact fun h => hx (congrArg _ (Except.error.inj h))
  | ok a => exact hf a

theorem Except.map_ne_error {x : Except ε α} {f : α → β} {e : ε} (hx : x ≠ .error e) :
    x.map f ≠ .error e := by
  cases x with
  | error d => exact fun h => hx (congrArg _ (Except.error.inj h))
  | ok a => exact nofun

/-- Steps that all come to results come to the list of them. -/
theorem mapM_eq_ok_of_forall {f : α → Except ε β} {g : α → β} {l : List α}
    (h : ∀ x ∈ l, f x = .ok (g x)) : l.mapM f = .ok (l.map g) := by
  induction l with
  | nil => rfl
  | cons x l ih =>
    obtain ⟨hx, hl⟩ := List.forall_mem_cons.mp h
    rw [List.mapM_cons, hx, ih hl]
    rfl

/-- Steps that come to the same come to the same list. -/
theorem mapM_congr {f g : α → Except ε β} {l : List α} (h : ∀ x ∈ l, f x = g x) :
    l.mapM f = l.mapM g := by
  induction l with
  | nil => rfl
  | cons x l ih =>
    obtain ⟨hx, hl⟩ := List.forall_mem_cons.mp h
    rw [List.mapM_cons, List.mapM_cons, hx, ih hl]

/-- A list of steps that fails does so with the failure of one of them. -/
theorem exists_of_mapM_eq_error {f : α → Except ε β} {l : List α} {e : ε}
    (h : l.mapM f = .error e) : ∃ x ∈ l, f x = .error e := by
  induction l with
  | nil => cases h
  | cons x l ih =>
    rw [List.mapM_cons] at h
    rcases Except.bind_eq_error_iff.mp h with hx | ⟨y, _, h⟩
    · exact ⟨x, List.mem_cons_self .., hx⟩
    · rcases Except.bind_eq_error_iff.mp h with hl | ⟨ys, _, h⟩
      · obtain ⟨z, hz, e⟩ := ih hl
        exact ⟨z, List.mem_cons_of_mem x hz, e⟩
      · cases h

/-- A list of steps comes to a result exactly if each step does. -/
theorem exists_mapM_eq_ok_iff {f : α → Except ε β} {l : List α} :
    (∃ ys, l.mapM f = .ok ys) ↔ ∀ x ∈ l, ∃ y, f x = .ok y := by
  induction l with
  | nil => exact iff_of_true ⟨[], rfl⟩ (by simp)
  | cons x l ih =>
    rw [List.forall_mem_cons, ← ih, List.mapM_cons]
    constructor
    · rintro ⟨ys, h⟩
      obtain ⟨y, hy, h⟩ := Except.bind_eq_ok_iff.mp h
      obtain ⟨zs, hzs, _⟩ := Except.bind_eq_ok_iff.mp h
      exact ⟨⟨y, hy⟩, zs, hzs⟩
    · rintro ⟨⟨y, hy⟩, zs, hzs⟩
      rw [hy, hzs]
      exact ⟨y :: zs, rfl⟩

/-- A list of results holds the result of each step. -/
theorem exists_of_mapM_eq_ok [Inhabited β] {f : α → Except ε β} {l : List α} {ys : List β}
    (h : l.mapM f = .ok ys) : ∃ g : α → β, (∀ x ∈ l, f x = .ok (g x)) ∧ ys = l.map g := by
  have each := exists_mapM_eq_ok_iff.mp ⟨ys, h⟩
  let g (x : α) : β := ((f x).toOption).getD default
  have value : ∀ x ∈ l, f x = .ok (g x) := by
    intro x hx
    obtain ⟨y, hy⟩ := each x hx
    simp only [g, hy]
    rfl
  refine ⟨g, value, ?_⟩
  rw [mapM_eq_ok_of_forall value] at h
  exact (Except.ok.inj h).symm

/-- A loop whose step first makes something that may fail, and then puts it to
the state, can make all of it first. -/
theorem foldlM_eq_map_mapM {σ : Type} {step : σ → α → Except ε σ} {make : α → Except ε β}
    {put : σ → β → σ} (h : ∀ s x, step s x = (make x).map (put s)) (l : List α) (s : σ) :
    l.foldlM step s = (l.mapM make).map fun ys => ys.foldl put s := by
  induction l generalizing s with
  | nil => rfl
  | cons x l ih =>
    rw [List.foldlM_cons, List.mapM_cons, h]
    cases make x with
    | error e => rfl
    | ok y =>
      refine (ih (put s y)).trans ?_
      rw [Except.ok_bind]
      cases l.mapM make <;> rfl

end AssetAudit
