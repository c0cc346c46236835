/-
  Checked memory and runs. An array is a total function read and written under its length:
  `fetch` and `store` fault on an index at or above it, where the program they stand for
  would have no defined behaviour. A machine is a step function into `Except Fault`; `run`
  folds it over a list of inputs.

  * `ok_bind`, `fetch_of_lt`, `store_of_lt`: the equations that execute a program whose
    indices are known to be in range.
  * `Along P step s as`: the condition `P` holds at every step of the run of `as` from `s`.
  * `run_inv`: an invariant that every permitted step keeps, without faulting, holds at the
    end of every permitted run, and no such run faults. `run_pair` is the rule for two runs.
-/
import Mathlib

namespace LiteExchange.Lib

/-- Why an execution has no defined result. -/
inductive Fault where
  /-- an array index at or above the array's length -/
  | outOfRange
  /-- a loop ran past the iterations its bound allows -/
  | diverged
  deriving DecidableEq, Repr

theorem ok_bind {ε α β : Type} (a : α) (f : α → Except ε β) : (Except.ok a >>= f) = f a := rfl

theorem error_bind {ε α β : Type} (e : ε) (f : α → Except ε β) :
    ((Except.error e : Except ε α) >>= f) = .error e := rfl

theorem pure_eq_ok {ε α : Type} (a : α) : (pure a : Except ε α) = .ok a := rfl

/-- A computation that binds to a result has a first stage that succeeds. -/
theorem bind_eq_ok {ε α β : Type} {x : Except ε α} {f : α → Except ε β} {b : β}
    (h : (x >>= f) = .ok b) : ∃ a, x = .ok a ∧ f a = .ok b := by
  cases x with
  | error e => rw [error_bind] at h; cases h
  | ok a => exact ⟨a, rfl, h⟩

/-! ## Arrays -/

section Arrays

variable {α : Type} {n i : Nat}

/-- `a[i]` of an array of length `n`. -/
def fetch (n : Nat) (a : Nat → α) (i : Nat) : Except Fault α :=
  if i < n then .ok (a i) else .error .outOfRange

/-- `a[i] = v` on an array of length `n`. -/
def store (n : Nat) (a : Nat → α) (i : Nat) (v : α) : Except Fault (Nat → α) :=
  if i < n then .ok (Function.update a i v) else .error .outOfRange

theorem fetch_of_lt (a : Nat → α) (h : i < n) : fetch n a i = .ok (a i) := if_pos h

theorem store_of_lt (a : Nat → α) (v : α) (h : i < n) :
    store n a i v = .ok (Function.update a i v) := if_pos h

theorem fetch_eq_ok {a : Nat → α} {v : α} (h : fetch n a i = .ok v) : i < n ∧ a i = v := by
  unfold fetch at h
  split at h
  · exact ⟨‹_›, by cases h; rfl⟩
  · cases h

theorem store_eq_ok {a a' : Nat → α} {v : α} (h : store n a i v = .ok a') :
    i < n ∧ Function.update a i v = a' := by
  unfold store at h
  split at h
  · exact ⟨‹_›, by cases h; rfl⟩
  · cases h

end Arrays

/-! ## Runs -/

section Runs

variable {σ α : Type} (step : σ → α → Except Fault σ) (P : σ → α → Prop)

/-- The run of a list of inputs. -/
def run : σ → List α → Except Fault σ
  | s, [] => .ok s
  | s, a :: as => step s a >>= fun t => run t as

/-- `P` holds of the state and the input at every step of the run from `s`. -/
def Along : σ → List α → Prop
  | _, [] => True
  | s, a :: as => P s a ∧ ∀ t, step s a = .ok t → Along t as

/-- `Along` for a decidable condition, computed along the run. -/
def checkAlong (p : σ → α → Bool) : σ → List α → Bool
  | _, [] => true
  | s, a :: as => p s a && match step s a with
    | .ok t => checkAlong p t as
    | .error _ => true

variable {step P}

theorem run_append (s : σ) (as bs : List α) :
    run step s (as ++ bs) = run step s as >>= fun t => run step t bs := by
  induction as generalizing s with
  | nil => rfl
  | cons a as ih =>
    simp only [List.cons_append, run]
    cases step s a with
    | error e => rfl
    | ok t => exact ih t

theorem run_snoc {s t : σ} {as : List α} (h : run step s as = .ok t) (a : α) :
    run step s (as ++ [a]) = step t a := by
  rw [run_append, h, ok_bind]
  simp only [run]
  cases step t a <;> rfl

theorem along_append {s : σ} {as bs : List α} :
    Along step P s (as ++ bs) ↔
      Along step P s as ∧ ∀ t, run step s as = .ok t → Along step P t bs := by
  induction as generalizing s with
  | nil => simp [Along, run]
  | cons a as ih =>
    simp only [List.cons_append, Along, run]
    constructor
    · rintro ⟨hp, h⟩
      refine ⟨⟨hp, fun t ht => (ih.mp (h t ht)).1⟩, fun t ht => ?_⟩
      obtain ⟨u, hu, hrun⟩ := bind_eq_ok ht
      exact (ih.mp (h u hu)).2 t hrun
    · rintro ⟨⟨hp, h⟩, hb⟩
      exact ⟨hp, fun u hu => ih.mpr ⟨h u hu, fun t ht => hb t (by rw [hu, ok_bind, ht])⟩⟩

theorem along_mono {Q : σ → α → Prop} (hPQ : ∀ s a, P s a → Q s a) {s : σ} {as : List α}
    (h : Along step P s as) : Along step Q s as := by
  induction as generalizing s with
  | nil => trivial
  | cons a as ih => exact ⟨hPQ s a h.1, fun t ht => ih (h.2 t ht)⟩

theorem along_and {Q : σ → α → Prop} {s : σ} {as : List α} (hP : Along step P s as)
    (hQ : Along step Q s as) : Along step (fun s a => P s a ∧ Q s a) s as := by
  induction as generalizing s with
  | nil => trivial
  | cons a as ih => exact ⟨⟨hP.1, hQ.1⟩, fun t ht => ih (hP.2 t ht) (hQ.2 t ht)⟩

theorem along_of_check {p : σ → α → Bool} (hp : ∀ s a, p s a = true → P s a) {s : σ}
    {as : List α} (h : checkAlong step p s as = true) : Along step P s as := by
  induction as generalizing s with
  | nil => trivial
  | cons a as ih =>
    rw [checkAlong, Bool.and_eq_true] at h
    refine ⟨hp s a h.1, fun t ht => ih ?_⟩
    rw [ht] at h
    exact h.2

/-- Steps permitted by what they keep. -/
theorem along_of_inv {I : σ → Prop} {s : σ} (hs : I s) {as : List α}
    (hP : ∀ a ∈ as, ∀ s, I s → P s a)
    (hstep : ∀ a ∈ as, ∀ s t, I s → step s a = .ok t → I t) : Along step P s as := by
  induction as generalizing s with
  | nil => trivial
  | cons a as ih =>
    refine ⟨hP a List.mem_cons_self s hs, fun t ht => ?_⟩
    exact ih (hstep a List.mem_cons_self s t hs ht)
      (fun b hb => hP b (List.mem_cons_of_mem _ hb)) fun b hb => hstep b (List.mem_cons_of_mem _ hb)

/-- The invariant rule. `I` may use the number of steps taken so far. -/
theorem run_inv {I : Nat → σ → Prop}
    (hstep : ∀ n s a, I n s → P s a → ∃ t, step s a = .ok t ∧ I (n + 1) t)
    {n : Nat} {s : σ} (hs : I n s) {as : List α} (hP : Along step P s as) :
    ∃ t, run step s as = .ok t ∧ I (n + as.length) t := by
  induction as generalizing n s with
  | nil => exact ⟨s, rfl, hs⟩
  | cons a as ih =>
    obtain ⟨u, hu, hI⟩ := hstep n s a hs hP.1
    obtain ⟨t, ht, hIt⟩ := ih hI (hP.2 u hu)
    refine ⟨t, by rw [run, hu, ok_bind, ht], ?_⟩
    rw [List.length_cons, Nat.add_comm as.length 1, ← Nat.add_assoc]
    exact hIt

/-- The invariant rule for steps that are always permitted. -/
theorem run_keeps {I : σ → Prop} (hstep : ∀ s a, I s → ∃ t, step s a = .ok t ∧ I t) {s : σ}
    (hs : I s) (as : List α) : ∃ t, run step s as = .ok t ∧ I t := by
  induction as generalizing s with
  | nil => exact ⟨s, rfl, hs⟩
  | cons a as ih =>
    obtain ⟨u, hu, hI⟩ := hstep s a hs
    obtain ⟨t, ht, hIt⟩ := ih hI
    exact ⟨t, by rw [run, hu, ok_bind, ht], hIt⟩

/-- Two runs of the same inputs. `R as` relates states that have the inputs `as` before them. The
    second run is permitted because the first one is. -/
theorem run_pair {R : List α → σ → σ → Prop}
    (hstep : ∀ a as s t, R (a :: as) s t → P s a →
      P t a ∧ ∃ s' t', step s a = .ok s' ∧ step t a = .ok t' ∧ R as s' t')
    {as : List α} {s t : σ} (h : R as s t) (hP : Along step P s as) :
    Along step P t as ∧
      ∃ s' t', run step s as = .ok s' ∧ run step t as = .ok t' ∧ R [] s' t' := by
  induction as generalizing s t with
  | nil => exact ⟨trivial, s, t, rfl, rfl, h⟩
  | cons a as ih =>
    obtain ⟨hp, s₁, t₁, hs, ht, h₁⟩ := hstep a as s t h hP.1
    obtain ⟨halong, s', t', hrun, hrun', h'⟩ := ih h₁ (hP.2 s₁ hs)
    refine ⟨⟨hp, fun u hu => ?_⟩, s', t', by rw [run, hs, ok_bind, hrun],
      by rw [run, ht, ok_bind, hrun'], h'⟩
    obtain rfl : t₁ = u := Except.ok.inj (ht.symm.trans hu)
    exact halong

/-- What every step that succeeds keeps, a run that succeeds keeps. -/
theorem run_preserves {I : σ → Prop} (hstep : ∀ s a t, I s → step s a = .ok t → I t) {s t : σ}
    (hs : I s) {as : List α} (hrun : run step s as = .ok t) : I t := by
  induction as generalizing s with
  | nil =>
    cases hrun
    exact hs
  | cons a as ih =>
    obtain ⟨u, hu, hrun⟩ := bind_eq_ok hrun
    exact ih (hstep s a u hs hu) hrun

end Runs

end LiteExchange.Lib
