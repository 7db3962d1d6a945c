import Gylo.Lib.Runs

/-! # What a run puts out

A step can put something out besides moving the system on: messages, statements,
results. The outputs of a run are those of its steps, in order, and an invariant may
speak of the state and of everything put out so far. -/
namespace Runs

variable {σ α β : Type}

/-- The outputs of the actions, in order. -/
def outputs (step : σ → α → σ) (out : σ → α → List β) : σ → List α → List β
  | _, [] => []
  | s, a :: as => out s a ++ outputs step out (step s a) as

section
variable {step : σ → α → σ} {out : σ → α → List β} {ok : σ → α → Prop}

/-- Invariant rule for a state together with what has been put out. -/
theorem Along.outputs_inv {J : σ → List β → Prop}
    (keep : ∀ s a bs, J s bs → ok s a → J (step s a) (bs ++ out s a)) :
    ∀ {s : σ} {bs : List β} (as : List α), J s bs → Along step ok s as →
      J (run step s as) (bs ++ outputs step out s as)
  | s, bs, [], h, _ => by
    rw [outputs, List.append_nil]
    exact h
  | s, bs, a :: as, h, ⟨ha, hs⟩ => by
    rw [outputs, ← List.append_assoc]
    exact Along.outputs_inv keep as (keep s a bs h ha) hs

/-- The same of runs that may have any action. -/
theorem outputs_inv {J : σ → List β → Prop} (keep : ∀ s a bs, J s bs → J (step s a) (bs ++ out s a))
    {s : σ} (as : List α) (h : J s []) : J (run step s as) (outputs step out s as) := by
  have hall := Along.outputs_inv (fun s a bs hj _ => keep s a bs hj) as h (along_true s as)
  rwa [List.nil_append] at hall

/-- A credit bounds what is put out, if every step pays for what it puts out. -/
theorem length_outputs_le {I : σ → Prop} (credit : σ → Nat) (keep : ∀ s a, I s → I (step s a))
    (pay : ∀ s a, I s → (out s a).length + credit (step s a) ≤ credit s) {s : σ} (as : List α) (h : I s) :
    (outputs step out s as).length ≤ credit s := by
  have hstart : I s ∧ ([] : List β).length + credit s ≤ credit s :=
    ⟨h, Nat.le_of_eq (Nat.zero_add _)⟩
  have hpay : ∀ t a (bs : List β), I t ∧ bs.length + credit t ≤ credit s →
      I (step t a) ∧ (bs ++ out t a).length + credit (step t a) ≤ credit s := by
    intro t a bs ht
    refine ⟨keep t a ht.1, ?_⟩
    rw [List.length_append, Nat.add_assoc]
    exact Nat.le_trans (Nat.add_le_add_left (pay t a ht.1) _) ht.2
  have hpaid := outputs_inv (J := fun t bs => I t ∧ bs.length + credit t ≤ credit s) hpay as hstart
  exact Nat.le_trans (Nat.le_add_right _ _) hpaid.2
end

end Runs
