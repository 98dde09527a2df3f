import Mathlib.Data.List.Basic
import Mathlib.Data.List.ReduceOption

/-!
# Loops over results that may fail

A loop that asks for one result after another, does something with each, and ends early when
asking fails or the body does. The results are a list here, and a result that is a failure is
`none`. `each` is the loop that goes through all of them, `first` the one that stops at what it
looks for.

A loop that came to its end has met no failure, and what its body preserves holds of all the
results in order (`each_run`).
-/

namespace Loop

variable {α β σ ε : Type}

/-- Every result is handed to `body`; `give` is how the loop fails when asking does. -/
def each (give : σ → ε) (body : α → σ → Except ε σ) : List (Option α) → σ → Except ε σ
  | [], s => .ok s
  | none :: _, s => .error (give s)
  | some a :: rest, s => body a s >>= each give body rest

/-- The first answer of `p`; the outer `none` is a failure met before it. -/
def first (p : α → Option β) : List (Option α) → Option (Option β)
  | [] => some none
  | none :: _ => none
  | some a :: rest =>
    match p a with
    | some b => some (some b)
    | none => first p rest

/-- All the results, unless one is a failure. -/
def complete : List (Option α) → Option (List α)
  | [] => some []
  | none :: _ => none
  | some a :: rest => (complete rest).map (a :: ·)

theorem complete_eq_some {rs : List (Option α)} {as : List α} :
    complete rs = some as ↔ rs = as.map some := by
  induction rs generalizing as with
  | nil =>
    unfold complete
    rw [Option.some_inj, eq_comm, eq_comm (a := ([] : List (Option α))), List.map_eq_nil_iff]
  | cons r rs ih =>
    cases r with
    | none =>
      refine iff_of_false (fun h => by cases h) fun h => ?_
      cases as <;> cases h
    | some a =>
      unfold complete
      rw [Option.map_eq_some_iff]
      constructor
      · rintro ⟨rest, hrest, rfl⟩
        rw [ih.mp hrest]
        rfl
      · intro h
        cases as with
        | nil => cases h
        | cons b bs =>
          obtain ⟨hab, hrest⟩ := List.cons.inj h
          cases hab
          exact ⟨bs, ih.mpr hrest, rfl⟩

theorem bind_eq_ok {x : Except ε α} {f : α → Except ε β} {b : β} :
    (x >>= f) = .ok b ↔ ∃ a, x = .ok a ∧ f a = .ok b := by
  cases x with
  | error e => exact iff_of_false (fun h => by cases h) fun ⟨_, h, _⟩ => by cases h
  | ok a =>
    refine ⟨fun h => ⟨a, rfl, h⟩, ?_⟩
    rintro ⟨_, h, hb⟩
    cases h
    exact hb

theorem exists_of_isOk {x : Except ε α} (h : x.isOk = true) : ∃ a, x = .ok a := by
  cases x with
  | error e => cases h
  | ok a => exact ⟨a, rfl⟩

/-- What a loop did before it failed or ended: the body went through some results. -/
theorem each_cases {g : σ → ε} {f : α → σ → Except ε σ} {P : List α → σ → Prop}
    {rs : List (Option α)} (step : ∀ done a s s', some a ∈ rs → P done s → f a s = .ok s' →
      P (done ++ [a]) s') {done : List α} {s : σ} (start : P done s) :
    match each g f rs s with
    | .ok s' => ∃ as, rs = as.map some ∧ P (done ++ as) s'
    | .error e => ∃ as s', (as.map some <+: rs) ∧ P (done ++ as) s' ∧
        (e = g s' ∨ ∃ a, some a ∈ rs ∧ f a s' = .error e) := by
  induction rs generalizing done s with
  | nil => exact ⟨[], rfl, (List.append_nil done).symm ▸ start⟩
  | cons r rs ih =>
    cases r with
    | none => exact ⟨[], s, List.nil_prefix, (List.append_nil done).symm ▸ start, .inl rfl⟩
    | some a =>
      unfold each
      cases hbody : f a s with
      | error e =>
        exact ⟨[], s, List.nil_prefix, (List.append_nil done).symm ▸ start,
          .inr ⟨a, List.mem_cons_self, hbody⟩⟩
      | ok s₁ =>
        have h := @ih (fun done b s s' hb => step done b s s' (List.mem_cons_of_mem _ hb)) (done ++ [a]) s₁
          (step done a s s₁ List.mem_cons_self start hbody)
        show match each g f rs s₁ with | .ok s' => _ | .error e => _
        cases hrest : each g f rs s₁ with
        | ok s' =>
          rw [hrest] at h
          obtain ⟨as, rfl, hP⟩ := h
          exact ⟨a :: as, rfl, by rwa [List.append_assoc] at hP⟩
        | error e =>
          rw [hrest] at h
          obtain ⟨as, s', hprefix, hP, hwhy⟩ := h
          refine ⟨a :: as, s', List.cons_prefix_cons.mpr ⟨rfl, hprefix⟩,
            by rwa [List.append_assoc] at hP, hwhy.imp_right ?_⟩
          rintro ⟨b, hb, hfail⟩
          exact ⟨b, List.mem_cons_of_mem _ hb, hfail⟩

/-- **What the body preserves holds behind the loop**, of all the results in order. -/
theorem each_run {give : σ → ε} {body : α → σ → Except ε σ} {P : List α → σ → Prop}
    {rs : List (Option α)} {s s' : σ} (start : P [] s)
    (step : ∀ done a t t', some a ∈ rs → P done t → body a t = .ok t' → P (done ++ [a]) t')
    (h : each give body rs s = .ok s') : ∃ as, rs = as.map some ∧ P as s' := by
  have hcases := each_cases (g := give) step start
  rwa [h] at hcases

/-! ## What is left in any case -/

/-- It holds of what a computation leaves, be it a state or the failure; `give` is how a state would
fail. -/
def Leaves (P : ε → Prop) (give : σ → ε) : Except ε σ → Prop
  | .ok s => P (give s)
  | .error e => P e

theorem Leaves.bind {τ : Type} {P : ε → Prop} {g : σ → ε} {g' : τ → ε} {x : Except ε σ}
    {f : σ → Except ε τ} (h : Leaves P g x)
    (step : ∀ s, x = .ok s → P (g s) → Leaves P g' (f s)) : Leaves P g' (x >>= f) := by
  cases x with
  | error e => exact h
  | ok s => exact step s rfl h

theorem Leaves.ok {P : ε → Prop} {give : σ → ε} {x : Except ε σ} {s : σ} (h : Leaves P give x)
    (run : x = .ok s) : P (give s) := by
  rw [run] at h
  exact h

theorem Leaves.error {P : ε → Prop} {give : σ → ε} {x : Except ε σ} {e : ε} (h : Leaves P give x)
    (run : x = .error e) : P e := by
  rw [run] at h
  exact h

/-- A loop leaves what its body leaves. -/
theorem each_leaves {P : ε → Prop} {give : σ → ε} {body : α → σ → Except ε σ}
    {rs : List (Option α)} {s : σ} (start : P (give s))
    (step : ∀ a t, some a ∈ rs → P (give t) → Leaves P give (body a t)) :
    Leaves P give (each give body rs s) := by
  induction rs generalizing s with
  | nil => exact start
  | cons r rs ih =>
    cases r with
    | none => exact start
    | some a =>
      unfold each
      apply Leaves.bind (step a s List.mem_cons_self start)
      intro t _ ht
      exact ih ht fun b u hb hu => step b u (List.mem_cons_of_mem _ hb) hu

/-! ## Two computations in step -/

/-- Two computations end alike: in related states, or in related failures. -/
inductive InStep {τ φ : Type} (R : σ → τ → Prop) (E : ε → φ → Prop) : Except ε σ → Except φ τ → Prop
  | ok {s t} : R s t → InStep R E (.ok s) (.ok t)
  | error {e f} : E e f → InStep R E (.error e) (.error f)

section

variable {τ φ σ' τ' : Type} {R : σ → τ → Prop} {R' : σ' → τ' → Prop} {E : ε → φ → Prop}

/-- The second computation may rely on what the first has come to. -/
theorem InStep.bind_of {x : Except ε σ} {y : Except φ τ} {f : σ → Except ε σ'} {g : τ → Except φ τ'}
    (h : InStep R E x y) (step : ∀ s t, x = .ok s → R s t → InStep R' E (f s) (g t)) :
    InStep R' E (x >>= f) (y >>= g) := by
  cases h with
  | ok hrel => exact step _ _ rfl hrel
  | error hfail => exact .error hfail

theorem InStep.bind {x : Except ε σ} {y : Except φ τ} {f : σ → Except ε σ'} {g : τ → Except φ τ'}
    (h : InStep R E x y) (step : ∀ s t, R s t → InStep R' E (f s) (g t)) :
    InStep R' E (x >>= f) (y >>= g) :=
  h.bind_of fun s t _ => step s t

theorem InStep.mono {S : σ → τ → Prop} {x : Except ε σ} {y : Except φ τ} (h : InStep R E x y)
    (weaker : ∀ s t, R s t → S s t) : InStep S E x y := by
  cases h with
  | ok hrel => exact .ok (weaker _ _ hrel)
  | error hfail => exact .error hfail

/-- Two computations that take the same branch. -/
theorem InStep.ite {p q : Prop} [Decidable p] [Decidable q] {x x' : Except ε σ} {y y' : Except φ τ}
    (same : p ↔ q) (pos : p → InStep R E x y) (neg : ¬p → InStep R E x' y') :
    InStep R E (if p then x else x') (if q then y else y') := by
  by_cases h : p
  · rw [if_pos h, if_pos (same.mp h)]
    exact pos h
  · rw [if_neg h, if_neg (mt same.mpr h)]
    exact neg h

/-- Two loops whose bodies go in step. -/
theorem each_inStep {give : σ → ε} {give' : τ → φ} {body : α → σ → Except ε σ}
    {body' : α → τ → Except φ τ} {rs : List (Option α)} {s : σ} {t : τ} (start : R s t)
    (gives : ∀ s t, R s t → E (give s) (give' t))
    (step : ∀ a s t, some a ∈ rs → R s t → InStep R E (body a s) (body' a t)) :
    InStep R E (each give body rs s) (each give' body' rs t) := by
  induction rs generalizing s t with
  | nil => exact .ok start
  | cons r rs ih =>
    cases r with
    | none => exact .error (gives s t start)
    | some a =>
      unfold each
      refine (step a s t List.mem_cons_self start).bind fun u v huv => ?_
      exact ih huv fun b u v hb => step b u v (List.mem_cons_of_mem _ hb)

end

/-- What is found is the answer to a result in front of which there is no other answer. -/
theorem first_eq_some {p : α → Option β} {rs : List (Option α)} {b : β}
    (h : first p rs = some (some b)) :
    ∃ (as : List α) (a : α) (rest : List (Option α)), rs = as.map some ++ some a :: rest ∧
      (∀ x ∈ as, p x = none) ∧ p a = some b := by
  induction rs with
  | nil => cases h
  | cons r rs ih =>
    cases r with
    | none => cases h
    | some a =>
      unfold first at h
      cases hp : p a with
      | some c =>
        rw [hp] at h
        cases h
        exact ⟨[], a, rs, rfl, fun _ hx => absurd hx List.not_mem_nil, hp⟩
      | none =>
        rw [hp] at h
        obtain ⟨as, a', rest, rfl, hnone, hb⟩ := ih h
        refine ⟨a :: as, a', rest, rfl, fun x hx => ?_, hb⟩
        rcases List.mem_cons.mp hx with rfl | hx
        · exact hp
        · exact hnone x hx

/-! ## Loops that run until they return -/

/-- So many rounds of a loop, whose body goes on with a state or returns. -/
def rounds {ρ : Type} (body : σ → Except ρ σ) : Nat → σ → Except ρ σ
  | 0, s => .ok s
  | n + 1, s => body s >>= rounds body n

section

variable {ρ : Type} {body : σ → Except ρ σ} {s s' : σ} {n : Nat}

theorem rounds_next (h : body s = .ok s') : rounds body (n + 1) s = rounds body n s' := by
  rw [rounds, h]
  rfl

theorem rounds_return {r : ρ} (h : body s = .error r) : rounds body (n + 1) s = .error r := by
  rw [rounds, h]
  rfl

end

end Loop
