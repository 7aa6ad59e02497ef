import Mathlib.Data.List.Basic

/-!
# Fallible code

Inversion of code that returns a value or an error: what each part returned when the whole did.

* `map_eq_ok`, `bind_eq_ok`: one step after another.
* `forM_eq_ok`: a check of every member of a list.
-/

namespace SmallTalk.Fallible

variable {ε α β σ : Type}

theorem map_eq_ok {x : Except ε α} {f : α → β} {b : β} :
    x.map f = .ok b ↔ ∃ a, x = .ok a ∧ f a = b := by
  cases x <;> simp [Except.map]

theorem bind_eq_ok {x : Except ε α} {f : α → Except ε β} {b : β} :
    (x >>= f) = .ok b ↔ ∃ a, x = .ok a ∧ f a = .ok b := by
  cases x <;> simp [bind, Except.bind]

theorem forM_eq_ok {f : α → Except ε Unit} {l : List α} :
    l.forM f = .ok () ↔ ∀ a ∈ l, f a = .ok () := by
  induction l with
  | nil => simp [pure, Except.pure]
  | cons a l ih =>
    show (f a >>= fun _ => l.forM f) = .ok () ↔ _
    rw [List.forall_mem_cons, ← ih, bind_eq_ok]
    exact ⟨fun ⟨_, ha, hl⟩ => ⟨ha, hl⟩, fun ⟨ha, hl⟩ => ⟨(), ha, hl⟩⟩

/-- Whether a step goes through depends on the member alone, so one bad member stops the pass. -/
theorem foldlM_isOk {f : σ → α → Except ε σ} {Good : α → Prop}
    (hstep : ∀ s a, (∃ s', f s a = .ok s') ↔ Good a) {l : List α} :
    ∀ {s : σ}, (∃ s', l.foldlM f s = .ok s') ↔ ∀ a ∈ l, Good a := by
  induction l with
  | nil => exact fun {s} => ⟨fun _ => by simp, fun _ => ⟨s, rfl⟩⟩
  | cons a l ih =>
    intro s
    rw [List.forall_mem_cons, List.foldlM_cons]
    constructor
    · rintro ⟨last, h⟩
      obtain ⟨next, hnext, hlast⟩ := bind_eq_ok.mp h
      exact ⟨(hstep s a).mp ⟨next, hnext⟩, ih.mp ⟨last, hlast⟩⟩
    · rintro ⟨hgood, hrest⟩
      obtain ⟨next, hnext⟩ := (hstep s a).mpr hgood
      obtain ⟨last, hlast⟩ := ih.mpr hrest
      exact ⟨last, bind_eq_ok.mpr ⟨next, hnext, hlast⟩⟩

end SmallTalk.Fallible
