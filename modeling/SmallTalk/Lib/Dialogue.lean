import Mathlib.Control.Monad.Basic

/-!
# Lib — computations that ask questions

A computation that reads the world through questions is a tree: it is done, or it asks a question
and goes on with the answer. A program written against an interface in any monad is such a tree
run in that monad (`run`).

* `eval_congr`: what a computation returns, and what it asks, depends only on the answers along
  its path.
* `run_state`: answers that work on a state give the value of the pure answers they return along
  the path, and keep an invariant that may speak of the questions asked so far.
* `run_keeps`: an invariant that every possible answer keeps is kept by the run.
-/

namespace SmallTalk

/-- A computation that asks questions of `Q`, answered in `A`. -/
inductive Dialogue (Q : Type) (A : Q → Type) (α : Type) where
  | done (a : α)
  | ask (q : Q) (next : A q → Dialogue Q A α)

namespace Dialogue

variable {Q : Type} {A : Q → Type} {α β : Type}

protected def bind : Dialogue Q A α → (α → Dialogue Q A β) → Dialogue Q A β
  | .done a, k => k a
  | .ask q next, k => .ask q fun a => (next a).bind k

instance : Monad (Dialogue Q A) where
  pure := .done
  bind := Dialogue.bind

def question (q : Q) : Dialogue Q A (A q) := .ask q .done

/-! ### Answers in a monad -/

section

variable {m : Type → Type} [Monad m]

def run (answer : ∀ q, m (A q)) : Dialogue Q A α → m α
  | .done a => pure a
  | .ask q next => answer q >>= fun a => run answer (next a)

variable (answer : ∀ q, m (A q))

@[simp] theorem run_pure (a : α) : run answer (pure a : Dialogue Q A α) = pure a := rfl

variable [LawfulMonad m]

@[simp] theorem run_question (q : Q) : run answer (question q) = answer q := by
  simp [question, run]

@[simp] theorem run_bind (x : Dialogue Q A α) (k : α → Dialogue Q A β) :
    run answer (x >>= k) = run answer x >>= fun a => run answer (k a) := by
  induction x with
  | done a => simp [bind, Dialogue.bind, run]
  | ask q next ih =>
    simp only [bind, Dialogue.bind, run] at ih ⊢
    simp only [ih]
    exact (bind_assoc _ _ _).symm

end

/-! ### Pure answers -/

/-- The value under pure answers. -/
def eval (f : ∀ q, A q) : Dialogue Q A α → α
  | .done a => a
  | .ask q next => eval f (next (f q))

/-- The questions asked under pure answers, in order. -/
def asked (f : ∀ q, A q) : Dialogue Q A α → List Q
  | .done _ => []
  | .ask q next => q :: asked f (next (f q))

variable {f g : ∀ q, A q}

theorem run_id (x : Dialogue Q A α) : run (m := Id) f x = eval f x := by
  induction x with
  | done a => rfl
  | ask q next ih => exact ih (f q)

theorem eval_congr {x : Dialogue Q A α} (h : ∀ q ∈ asked f x, f q = g q) :
    eval f x = eval g x ∧ asked f x = asked g x := by
  induction x with
  | done a => exact ⟨rfl, rfl⟩
  | ask q next ih =>
    have hq : f q = g q := h q List.mem_cons_self
    obtain ⟨hv, ha⟩ := ih (f q) fun p hp => h p (List.mem_cons_of_mem _ hp)
    refine ⟨?_, ?_⟩
    · simp only [eval, ← hq, hv]
    · simp only [asked, ← hq, ha]

/-! ### Answers that keep a state -/

section

variable {σ : Type} {answer : ∀ q, StateM σ (A q)} {x : Dialogue Q A α}

theorem run_state (inv : List Q → σ → Prop) {before : List Q} {s : σ}
    (h : ∀ q ∈ asked f x, ∀ qs s, inv qs s → ∃ s', (answer q).run s = (f q, s') ∧ inv (qs ++ [q]) s')
    (hs : inv before s) :
    ∃ s', (run answer x).run s = (eval f x, s') ∧ inv (before ++ asked f x) s' := by
  induction x generalizing before s with
  | done a => exact ⟨s, rfl, by simpa [asked] using hs⟩
  | ask q next ih =>
    obtain ⟨s₁, hrun, hs₁⟩ := h q List.mem_cons_self before s hs
    obtain ⟨s₂, hrun₂, hs₂⟩ := ih (f q) (fun p hp => h p (List.mem_cons_of_mem _ hp)) hs₁
    refine ⟨s₂, ?_, ?_⟩
    · simp only [run, StateT.run_bind, hrun]
      exact hrun₂
    · simpa [asked] using hs₂

/-- A question that some run with acceptable answers asks. -/
def Asks (ok : ∀ q, A q → Prop) : Dialogue Q A α → Q → Prop
  | .done _, _ => False
  | .ask q next, p => p = q ∨ ∃ a, ok q a ∧ Asks ok (next a) p

variable {ok : ∀ q, A q → Prop}

theorem asks_of_mem_asked (hf : ∀ q, ok q (f q)) {q : Q} (h : q ∈ asked f x) : Asks ok x q := by
  induction x with
  | done a => cases h
  | ask p next ih =>
    rcases List.mem_cons.mp h with rfl | h
    · exact .inl rfl
    · exact .inr ⟨f p, hf p, ih (f p) h⟩

theorem run_keeps (inv : σ → Prop) {s : σ}
    (h : ∀ q, Asks ok x q → ∀ s, inv s → ok q ((answer q).run s).1 ∧ inv ((answer q).run s).2)
    (hs : inv s) : inv ((run answer x).run s).2 := by
  induction x generalizing s with
  | done a => exact hs
  | ask q next ih =>
    obtain ⟨hok, hs₁⟩ := h q (.inl rfl) s hs
    simp only [run, StateT.run_bind]
    exact ih _ (fun p hp => h p (.inr ⟨_, hok, hp⟩)) hs₁

end

end Dialogue

end SmallTalk
