import Mathlib.Data.List.Chain
import Mathlib.Data.List.Basic

/-!
# Lib — code that writes durably

A value of `Durable σ ε α` runs on a store `σ`: it gives the stores that its writes leave, in their
order, and then returns a value or fails. A crash between two writes leaves one of these stores
(`cut`).

* `Ensures R P p Q`: run in a store with `P`, each write of `p` is a transition of `R`, and when `p`
  returns a value the store meets `Q`. One rule for each way to build code.
* `Achieves`: code that moreover does not fail.
-/

namespace SmallTalk

/-- The stores left by the writes, and what is returned. -/
def Durable (σ ε α : Type) : Type := σ → List σ × Except ε α

namespace Durable

variable {σ ε α β : Type}

/-- The last of the stores, `s` if there is none. -/
def last (s : σ) : List σ → σ
  | [] => s
  | store :: stores => last store stores

/-- The store when the code ends. -/
def outcome (p : Durable σ ε α) (s : σ) : σ := last s (p s).1

/-- The store when the code is cut after its first `n` writes. -/
def cut (p : Durable σ ε α) (n : ℕ) (s : σ) : σ := last s ((p s).1.take n)

instance instMonad : Monad (Durable σ ε) where
  pure a := fun _ => ([], .ok a)
  bind p f := fun s =>
    match p s with
    | (stores, Except.error e) => (stores, Except.error e)
    | (stores, Except.ok a) =>
      let rest := f a (last s stores)
      (stores ++ rest.1, rest.2)

def lift (x : Except ε α) : Durable σ ε α := fun _ => ([], x)

def fail (e : ε) : Durable σ ε α := fun _ => ([], .error e)

def read : Durable σ ε σ := fun s => ([], .ok s)

def write (f : σ → σ) : Durable σ ε Unit := fun s => ([f s], .ok ())

/-! ### Evaluation -/

@[simp] theorem last_nil {s : σ} : last s [] = s := rfl

@[simp] theorem last_cons {s store : σ} {l : List σ} : last s (store :: l) = last store l := rfl

section

variable {p : Durable σ ε α} {f : α → Durable σ ε β} {s : σ} {a : α} {e : ε} {stores : List σ}

@[simp] theorem pure_apply : (pure a : Durable σ ε α) s = ([], .ok a) := rfl

theorem bind_apply_ok (h : p s = (stores, .ok a)) :
    (p >>= f) s = (stores ++ (f a (last s stores)).1, (f a (last s stores)).2) := by
  simp only [bind, h]

theorem bind_apply_error (h : p s = (stores, .error e)) : (p >>= f) s = (stores, .error e) := by
  simp only [bind, h]

@[simp] theorem read_bind_apply {f : σ → Durable σ ε β} : (read >>= f) s = f s s := by
  rw [bind_apply_ok (f := f) (p := read) (s := s) rfl]
  simp

@[simp] theorem lift_ok_bind_apply : ((lift (.ok a) : Durable σ ε α) >>= f) s = f a s := by
  rw [bind_apply_ok (p := lift (.ok a)) (f := f) (s := s) rfl]
  simp

theorem lift_error_bind_apply : ((lift (.error e) : Durable σ ε α) >>= f) s = ([], .error e) :=
  bind_apply_error rfl

/-- Code that does not write leaves the stores of what came before. -/
theorem stores_bind_pure {g : α → β} : ((p >>= fun a => pure (g a)) s).1 = (p s).1 := by
  cases hrun : p s with
  | mk stores result =>
    cases result with
    | error e => rw [bind_apply_error hrun]
    | ok a => rw [bind_apply_ok hrun, pure_apply, List.append_nil]

end

/-! ### Before and after -/

variable {R : σ → σ → Prop} {P P' : σ → Prop} {p : Durable σ ε α} {Q Q' : α → σ → Prop}

/-- Run in a store with `P`, each write is a transition of `R`, and a value is returned in a store
with `Q`. -/
def Ensures (R : σ → σ → Prop) (P : σ → Prop) (p : Durable σ ε α) (Q : α → σ → Prop) : Prop :=
  ∀ s, P s → (s :: (p s).1).IsChain R ∧ ∀ a, (p s).2 = .ok a → Q a (p.outcome s)

theorem Ensures.weaken (h : Ensures R P p Q) (hP : ∀ s, P' s → P s)
    (hQ : ∀ a s, Q a s → Q' a s) : Ensures R P' p Q' :=
  fun s hs => ⟨(h s (hP s hs)).1, fun a ha => hQ a _ ((h s (hP s hs)).2 a ha)⟩

theorem ensures_pure {a : α} (h : ∀ s, P s → Q a s) : Ensures R P (pure a : Durable σ ε α) Q :=
  fun s hs => ⟨List.isChain_singleton s, fun _ ha => Except.ok.inj ha ▸ h s hs⟩

theorem ensures_fail {e : ε} : Ensures R P (fail e : Durable σ ε α) Q :=
  fun s _ => ⟨List.isChain_singleton s, nofun⟩

theorem ensures_lift {x : Except ε α} (h : ∀ s a, P s → x = .ok a → Q a s) :
    Ensures R P (lift x) Q :=
  fun s hs => ⟨List.isChain_singleton s, fun a ha => h s a hs ha⟩

theorem ensures_read {Q : σ → σ → Prop} (h : ∀ s, P s → Q s s) :
    Ensures R P (read : Durable σ ε σ) Q :=
  fun s hs => ⟨List.isChain_singleton s, fun _ ha => Except.ok.inj ha ▸ h s hs⟩

theorem ensures_write {w : σ → σ} {Q : Unit → σ → Prop} (h : ∀ s, P s → R s (w s) ∧ Q () (w s)) :
    Ensures R P (write w : Durable σ ε Unit) Q :=
  fun s hs => ⟨List.isChain_pair.mpr (h s hs).1, fun _ _ => (h s hs).2⟩

theorem last_append {s : σ} {l l' : List σ} : last s (l ++ l') = last (last s l) l' := by
  induction l generalizing s with
  | nil => rfl
  | cons a l ih => exact ih

theorem isChain_append_last {s : σ} {l l' : List σ} (h : (s :: l).IsChain R)
    (h' : (last s l :: l').IsChain R) : (s :: (l ++ l')).IsChain R := by
  induction l generalizing s with
  | nil => simpa using h'
  | cons a l ih =>
    rw [List.isChain_cons_cons] at h
    rw [List.cons_append, List.isChain_cons_cons]
    exact ⟨h.1, ih h.2 h'⟩

theorem ensures_bind {f : α → Durable σ ε β} {M : α → σ → Prop} {Q : β → σ → Prop}
    (hp : Ensures R P p M) (hf : ∀ a, Ensures R (M a) (f a) Q) : Ensures R P (p >>= f) Q := by
  intro s hs
  obtain ⟨hchain, hmid⟩ := hp s hs
  cases hrun : p s with
  | mk stores result =>
    cases result with
    | error e =>
      rw [outcome, bind_apply_error hrun]
      exact ⟨by simpa [hrun] using hchain, nofun⟩
    | ok a =>
      have hmid := hmid a (by rw [hrun])
      rw [outcome, hrun] at hmid
      obtain ⟨hrest, hlast⟩ := hf a _ hmid
      rw [outcome, bind_apply_ok hrun]
      refine ⟨isChain_append_last (by simpa [hrun] using hchain) hrest, fun b hb => ?_⟩
      rw [last_append]
      exact hlast b hb

/-- What is returned may be replaced at the end. -/
theorem ensures_seq_pure {g : α → β} (h : Ensures R P p fun _ _ => True) :
    Ensures R P (p >>= fun a => pure (g a)) fun _ _ => True :=
  ensures_bind h fun _ => ensures_pure fun _ _ => trivial

/-- After a read the store is known. -/
theorem ensures_read_bind {f : σ → Durable σ ε β} {Q : β → σ → Prop}
    (h : ∀ s, P s → Ensures R (· = s) (f s) Q) : Ensures R P (read >>= f) Q :=
  ensures_bind (ensures_read (Q := fun a s => P s ∧ a = s) fun _ hs => ⟨hs, rfl⟩) fun a s hs => by
    obtain ⟨hs, rfl⟩ := hs
    exact h a hs a rfl

theorem ensures_lift_bind {x : Except ε α} {f : α → Durable σ ε β} {Q : β → σ → Prop}
    (h : ∀ a, x = .ok a → Ensures R P (f a) Q) : Ensures R P (lift x >>= f) Q :=
  ensures_bind (ensures_lift (Q := fun a s => x = .ok a ∧ P s) fun _ _ hs hx => ⟨hx, hs⟩)
    fun a s hs => h a hs.1 s hs.2

/-! ### Invariants -/

theorem invariant_take {I : σ → Prop} (hstep : ∀ s s', R s s' → I s → I s') {l : List σ} :
    ∀ {s : σ} {n : ℕ}, (s :: l).IsChain R → I s → I (last s (l.take n)) := by
  induction l with
  | nil => intro s n _ hs; simpa using hs
  | cons a l ih =>
    intro s n h hs
    rw [List.isChain_cons_cons] at h
    cases n with
    | zero => simpa using hs
    | succ n => simpa using ih h.2 (hstep s a h.1 hs)

theorem cut_length {s : σ} : p.cut (p s).1.length s = p.outcome s := by
  rw [cut, outcome, List.take_length]

/-- Code that does not fail in a store with `P`. -/
def Returns (P : σ → Prop) (p : Durable σ ε α) : Prop := ∀ s, P s → ∃ a, (p s).2 = .ok a

theorem returns_pure {a : α} : Returns P (pure a : Durable σ ε α) := fun _ _ => ⟨a, rfl⟩

theorem returns_write {w : σ → σ} : Returns P (write w : Durable σ ε Unit) := fun _ _ => ⟨(), rfl⟩

/-- Code that makes its writes and returns. -/
structure Achieves (R : σ → σ → Prop) (P : σ → Prop) (p : Durable σ ε α) (Q : α → σ → Prop) :
    Prop where
  ensures : Ensures R P p Q
  returns : Returns P p

theorem Achieves.weaken (h : Achieves R P p Q) (hP : ∀ s, P' s → P s)
    (hQ : ∀ a s, Q a s → Q' a s) : Achieves R P' p Q' :=
  ⟨h.ensures.weaken hP hQ, fun s hs => h.returns s (hP s hs)⟩

theorem achieves_pure {a : α} (h : ∀ s, P s → Q a s) : Achieves R P (pure a : Durable σ ε α) Q :=
  ⟨ensures_pure h, returns_pure⟩

theorem achieves_bind {f : α → Durable σ ε β} {M : α → σ → Prop} {Q : β → σ → Prop}
    (hp : Achieves R P p M) (hf : ∀ a, Achieves R (M a) (f a) Q) : Achieves R P (p >>= f) Q := by
  refine ⟨ensures_bind hp.ensures fun a => (hf a).ensures, fun s hs => ?_⟩
  obtain ⟨a, ha⟩ := hp.returns s hs
  have hrun : p s = ((p s).1, .ok a) := by rw [← ha]
  rw [bind_apply_ok hrun]
  exact (hf a).returns _ ((hp.ensures s hs).2 a ha)

theorem achieves_read_bind {f : σ → Durable σ ε β} {Q : β → σ → Prop}
    (h : ∀ s, P s → Achieves R (· = s) (f s) Q) : Achieves R P (read >>= f) Q := by
  refine ⟨ensures_read_bind fun s hs => (h s hs).ensures, fun s hs => ?_⟩
  rw [read_bind_apply]
  exact (h s hs).returns s rfl

/-- **Wherever the code is cut**, what its writes preserve holds. -/
theorem Ensures.forall_cut {I : σ → Prop} {s : σ} (h : Ensures R P p Q)
    (hstep : ∀ s s', R s s' → I s → I s') (hs : P s) (hI : I s) (n : ℕ) : I (p.cut n s) :=
  invariant_take hstep (h s hs).1 hI

end Durable

end SmallTalk
