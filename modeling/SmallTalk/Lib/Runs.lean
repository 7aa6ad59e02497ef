import Mathlib.Data.List.Basic

/-!
# Lib — conditions along a run

A machine takes one step for each event. `Along` says that every event of a run meets a condition
on the state it is taken in, and is what an invariant is carried by (`Along.invariant`).
-/

namespace SmallTalk.Runs

variable {σ ε : Type*}

/-- Every event meets `P` in the state it is taken in. -/
def Along (step : σ → ε → σ) (P : σ → ε → Prop) : σ → List ε → Prop
  | _, [] => True
  | s, e :: es => P s e ∧ Along step P (step s e) es

variable {step : σ → ε → σ} {P Q : σ → ε → Prop} {s : σ} {es es' : List ε}

instance decidableAlong [∀ s e, Decidable (P s e)] :
    ∀ (s : σ) (es : List ε), Decidable (Along step P s es)
  | _, [] => isTrue trivial
  | s, e :: es =>
    have := decidableAlong (step s e) es
    inferInstanceAs (Decidable (P s e ∧ Along step P (step s e) es))

@[simp] theorem along_append :
    Along step P s (es ++ es') ↔ Along step P s es ∧ Along step P (es.foldl step s) es' := by
  induction es generalizing s with
  | nil => simp [Along]
  | cons e es ih => simp only [List.cons_append, Along, List.foldl_cons, ih, and_assoc]

/-- **The invariant rule**: what each step preserves, under its condition, a run preserves. -/
theorem Along.invariant {I : σ → Prop} (hstep : ∀ s e, P s e → I s → I (step s e))
    (h : Along step P s es) (hs : I s) : I (es.foldl step s) := by
  induction es generalizing s with
  | nil => exact hs
  | cons e es ih => exact ih h.2 (hstep s e h.1 hs)

theorem along_and :
    Along step (fun s e => P s e ∧ Q s e) s es ↔ Along step P s es ∧ Along step Q s es := by
  induction es generalizing s with
  | nil => simp [Along]
  | cons e es ih => simp only [Along, ih]; tauto

/-- A condition on the events alone. -/
theorem along_of_forall (h : ∀ e ∈ es, ∀ s, P s e) : Along step P s es := by
  induction es generalizing s with
  | nil => trivial
  | cons e es ih =>
    exact ⟨h e List.mem_cons_self s, ih fun e he => h e (List.mem_cons_of_mem _ he)⟩

/-- A condition holds along a run when it holds at each event of it. -/
theorem along_iff_forall :
    Along step P s es ↔ ∀ before e rest, es = before ++ e :: rest → P (before.foldl step s) e := by
  constructor
  · rintro h before e rest rfl
    exact (along_append.mp h).2.1
  · intro h
    induction es generalizing s with
    | nil => trivial
    | cons e es ih =>
      refine ⟨h [] e es rfl, ih fun before e' rest heq => ?_⟩
      exact h (e :: before) e' rest (by rw [heq, List.cons_append])

/-- **The breaking rule**: where each step keeps `G` under `K` and loses `R` otherwise, a run has
`R` in every state it reaches exactly if `K` holds along it. -/
theorem forall_prefix_iff_along_of_break {G R : σ → Prop} {K : σ → ε → Prop}
    (hGR : ∀ s, G s → R s) (hkeep : ∀ s e, P s e → G s → K s e → G (step s e))
    (hbreak : ∀ s e, P s e → G s → ¬ K s e → ¬ R (step s e)) (h : Along step P s es) (hs : G s) :
    (∀ taken, taken <+: es → R (taken.foldl step s)) ↔ Along step K s es := by
  induction es generalizing s with
  | nil => simpa [Along] using hGR s hs
  | cons e es ih =>
    constructor
    · intro hall
      have hnext : R (step s e) := hall [e] (List.cons_prefix_cons.mpr ⟨rfl, List.nil_prefix⟩)
      have hk : K s e := by
        by_contra hk
        exact hbreak s e h.1 hs hk hnext
      refine ⟨hk, (ih h.2 (hkeep s e h.1 hs hk)).mp fun taken htaken => ?_⟩
      exact hall (e :: taken) (List.cons_prefix_cons.mpr ⟨rfl, htaken⟩)
    · rintro ⟨hk, hrest⟩ taken htaken
      cases taken with
      | nil => exact hGR s hs
      | cons e' taken =>
        obtain ⟨rfl, hrestTaken⟩ := List.cons_prefix_cons.mp htaken
        exact (ih h.2 (hkeep s _ h.1 hs hk)).mpr hrest taken hrestTaken

/-- **The exact rule**: where each step keeps `S` exactly under `K`, a run keeps it in every state
it reaches exactly if `K` holds along it. -/
theorem forall_prefix_iff_along {I S : σ → Prop} {K : σ → ε → Prop}
    (hI : ∀ s e, P s e → I s → I (step s e))
    (hS : ∀ s e, P s e → I s → S s → (S (step s e) ↔ K s e))
    (h : Along step P s es) (hs : I s) (hstart : S s) :
    (∀ taken, taken <+: es → S (taken.foldl step s)) ↔ Along step K s es :=
  forall_prefix_iff_along_of_break (G := fun s => I s ∧ S s) (fun _ hG => hG.2)
    (fun s e hP hG hk => ⟨hI s e hP hG.1, (hS s e hP hG.1 hG.2).mpr hk⟩)
    (fun s e hP hG hk hnext => hk ((hS s e hP hG.1 hG.2).mp hnext)) h ⟨hs, hstart⟩

end SmallTalk.Runs
