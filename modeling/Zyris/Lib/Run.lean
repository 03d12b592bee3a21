import Mathlib.Algebra.Order.Ring.Int
import Mathlib.Logic.Basic
import Mathlib.Data.List.Basic

/-!
# Runs of a labelled step relation

`Run R s₀ as s` says that `R` leads from `s₀` to `s` through the labels `as`.  Runs grow at their
end, so an invariant may speak about the labels taken so far.  `Steps step` is the relation of a
partial step function, `Guarded R ok` keeps the steps that `ok` allows, and `exec` turns a concrete
trace into a run (`run_of_exec`).
-/

namespace Zyris

variable {σ α : Type*}

/-- `Run R s₀ as s`: the labels `as` lead from `s₀` to `s`. -/
inductive Run (R : σ → α → σ → Prop) (s₀ : σ) : List α → σ → Prop
  | nil : Run R s₀ [] s₀
  | snoc {as : List α} {s s' : σ} {a : α} : Run R s₀ as s → R s a s' → Run R s₀ (as ++ [a]) s'

/-- The step relation of a partial step function. -/
def Steps (step : σ → α → Option σ) (s : σ) (a : α) (s' : σ) : Prop :=
  step s a = some s'

/-- The steps of `R` whose label is allowed by `ok` in the state they start from. -/
def Guarded (R : σ → α → σ → Prop) (ok : σ → α → Prop) (s : σ) (a : α) (s' : σ) : Prop :=
  R s a s' ∧ ok s a

/-- Execute a trace; `none` when a step is not enabled. -/
def exec (step : σ → α → Option σ) : σ → List α → Option σ
  | s, [] => some s
  | s, a :: as => (step s a).bind fun s' => exec step s' as

namespace Run

variable {R R' : σ → α → σ → Prop} {s₀ s s' : σ} {as bs : List α} {a : α}

/-- **Invariant rule**: a property of labels and state that holds at the start and is kept by every
step holds along every run. -/
theorem invariant {I : List α → σ → Prop} (init : I [] s₀)
    (step : ∀ as s a s', Run R s₀ as s → I as s → R s a s' → I (as ++ [a]) s')
    (h : Run R s₀ as s) : I as s := by
  induction h with
  | nil => exact init
  | snoc hr hs ih => exact step _ _ _ _ hr ih hs

theorem state_invariant {I : σ → Prop} (init : I s₀)
    (step : ∀ s a s', I s → R s a s' → I s') (h : Run R s₀ as s) : I s :=
  invariant (I := fun _ s => I s) init (fun _ s a s' _ hi hs => step s a s' hi hs) h

theorem mono (hR : ∀ s a s', R s a s' → R' s a s') (h : Run R s₀ as s) : Run R' s₀ as s := by
  induction h with
  | nil => exact .nil
  | snoc _ hs ih => exact ih.snoc (hR _ _ _ hs)

theorem append (h : Run R s₀ as s) (h' : Run R s bs s') : Run R s₀ (as ++ bs) s' := by
  induction h' with
  | nil => rwa [List.append_nil]
  | snoc _ hs ih =>
    rw [← List.append_assoc]
    exact ih.snoc hs

theorem single (h : R s a s') : Run R s [a] s' := Run.nil.snoc h

theorem cons {t : σ} (h : R s a t) (h' : Run R t as s') : Run R s (a :: as) s' :=
  (single h).append h'

theorem eq_of_nil (h : Run R s [] s') : s' = s := by
  generalize hbs : [] = bs at h
  cases h with
  | nil => rfl
  | snoc => simp at hbs

theorem exists_of_cons (h : Run R s (a :: as) s') : ∃ t, R s a t ∧ Run R t as s' := by
  generalize hbs : a :: as = bs at h
  induction h generalizing as with
  | nil => cases hbs
  | @snoc bs u v b hr hs ih =>
    -- the first label is the only one, or the first of the shorter run
    rcases List.cons_eq_append_iff.mp hbs with ⟨rfl, hab⟩ | ⟨cs, rfl, rfl⟩
    · cases hab
      rw [hr.eq_of_nil] at hs
      exact ⟨v, hs, .nil⟩
    · obtain ⟨t, ht, hrest⟩ := ih rfl
      exact ⟨t, ht, hrest.snoc hs⟩

/-- A run over two lists passes through a state between them. -/
theorem exists_of_append {bs : List α} (h : Run R s (bs ++ as) s') :
    ∃ t, Run R s bs t ∧ Run R t as s' := by
  induction bs generalizing s with
  | nil => exact ⟨s, .nil, h⟩
  | cons b bs ih =>
    obtain ⟨u, hb, hrest⟩ := h.exists_of_cons
    obtain ⟨t, hbs, has⟩ := ih hrest
    exact ⟨t, .cons hb hbs, has⟩

theorem of_guarded {ok : σ → α → Prop} (h : Run (Guarded R ok) s₀ as s) : Run R s₀ as s :=
  h.mono fun _ _ _ hs => hs.1

/-- A guard that follows from an invariant holds at every step. -/
theorem guarded_of_invariant {I : σ → Prop} {ok : σ → α → Prop} (init : I s₀)
    (step : ∀ s a s', I s → R s a s' → I s') (h : Run R s₀ as s)
    (hok : ∀ a ∈ as, ∀ s, I s → ok s a) : Run (Guarded R ok) s₀ as s := by
  induction h with
  | nil => exact .nil
  | snoc hr hs ih =>
    refine (ih fun a ha => hok a (List.mem_append_left _ ha)).snoc ⟨hs, hok _ ?_ _ ?_⟩
    · exact List.mem_append_right _ (List.mem_singleton_self _)
    · exact hr.state_invariant init step

theorem guarded {ok : σ → α → Prop} (h : Run R s₀ as s) (hok : ∀ a ∈ as, ∀ s, ok s a) :
    Run (Guarded R ok) s₀ as s :=
  guarded_of_invariant (I := fun _ => True) trivial (fun _ _ _ _ _ => trivial) h
    fun a ha s _ => hok a ha s

end Run

theorem run_of_exec {step : σ → α → Option σ} : ∀ {as : List α} {s s' : σ},
    exec step s as = some s' → Run (Steps step) s as s'
  | [], s, s', h => by
    obtain rfl := Option.some.inj h
    exact .nil
  | a :: as, s, s', h => by
    obtain ⟨t, ht, hr⟩ := Option.bind_eq_some_iff.mp h
    exact .cons ht (run_of_exec hr)

/-- Execute a trace whose steps must meet a condition. -/
def execOk (step : σ → α → Option σ) (ok : σ → α → Bool) : σ → List α → Option σ :=
  exec fun s a => if ok s a then step s a else none

theorem run_of_execOk {step : σ → α → Option σ} {ok : σ → α → Bool} {as : List α} {s s' : σ}
    (h : execOk step ok s as = some s') :
    Run (Guarded (Steps step) fun s a => ok s a = true) s as s' := by
  refine (run_of_exec h).mono fun s a s' hs => ?_
  simp only [Steps] at hs
  split_ifs at hs with hok
  exact ⟨hs, hok⟩

/-- A trace that ends in a state with the decidable property `P`. -/
theorem exists_run_of_exec (step : σ → α → Option σ) (s : σ) (as : List α) (P : σ → Prop)
    [DecidablePred P] (h : (exec step s as).any (fun s' => P s') = true) :
    ∃ s', Run (Steps step) s as s' ∧ P s' := by
  obtain ⟨s', hs, hP⟩ := (Option.any_eq_true _ _).mp h
  exact ⟨s', run_of_exec hs, of_decide_eq_true hP⟩

theorem exists_run_of_execOk (step : σ → α → Option σ) (ok : σ → α → Bool) (s : σ) (as : List α)
    (P : σ → Prop) [DecidablePred P]
    (h : (execOk step ok s as).any (fun s' => P s') = true) :
    ∃ s', Run (Guarded (Steps step) fun s a => ok s a = true) s as s' ∧ P s' := by
  obtain ⟨s', hs, hP⟩ := (Option.any_eq_true _ _).mp h
  exact ⟨s', run_of_execOk hs, of_decide_eq_true hP⟩

end Zyris
