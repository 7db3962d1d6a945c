import Mathlib.Data.List.Basic

/-! # Runs of a step function

A system is a total step function `σ → α → σ`: an action the system refuses
leaves the state as it was. A run is a list of actions taken in order, so the
states a system reaches from `s` are exactly the `run step s as`, and a
statement about every run is a statement about every interleaving of the
parties whose actions the list mixes. -/
namespace Runs

variable {σ α : Type}

/-- The state after the actions, in order. -/
def run (step : σ → α → σ) (s : σ) (as : List α) : σ := as.foldl step s

/-- Every action of the run meets `ok` in the state it is taken in. -/
def Along (step : σ → α → σ) (ok : σ → α → Prop) : σ → List α → Prop
  | _, [] => True
  | s, a :: as => ok s a ∧ Along step ok (step s a) as

section
variable {step : σ → α → σ} {ok : σ → α → Prop} {s : σ}

@[simp] theorem run_nil : run step s [] = s := rfl

@[simp] theorem run_cons (a : α) (as : List α) : run step s (a :: as) = run step (step s a) as :=
  rfl

theorem run_append (as bs : List α) : run step s (as ++ bs) = run step (run step s as) bs :=
  List.foldl_append

theorem run_concat (as : List α) (a : α) : run step s (as ++ [a]) = step (run step s as) a := by
  rw [run_append]; rfl

/-- Invariant rule for runs whose every action meets a condition. -/
theorem Along.inv {I : σ → Prop} (keep : ∀ s a, I s → ok s a → I (step s a)) :
    ∀ {s : σ} (as : List α), I s → Along step ok s as → I (run step s as)
  | _, [], h, _ => h
  | _, a :: as, h, ⟨ha, hs⟩ => Along.inv keep as (keep _ a h ha) hs

theorem along_append : ∀ {s : σ} {as bs : List α},
    Along step ok s (as ++ bs) ↔ Along step ok s as ∧ Along step ok (run step s as) bs
  | _, [], _ => ⟨fun h => ⟨trivial, h⟩, fun h => h.2⟩
  | s, a :: as, bs => by
    rw [List.cons_append, Along, Along, run_cons, along_append, and_assoc]

/-- A weaker condition holds along the same runs. -/
theorem Along.imp {ok' : σ → α → Prop} (h : ∀ s a, ok s a → ok' s a) :
    ∀ {s : σ} (as : List α), Along step ok s as → Along step ok' s as
  | _, [], _ => trivial
  | s, a :: as, ⟨ha, has⟩ => ⟨h s a ha, Along.imp h as has⟩

theorem along_true : ∀ (s : σ) (as : List α), Along step (fun _ _ => True) s as
  | _, [] => trivial
  | s, a :: as => ⟨trivial, along_true (step s a) as⟩

/-- Invariant rule: what every step keeps holds after every run. -/
theorem run_inv {I : σ → Prop} (keep : ∀ s a, I s → I (step s a)) (as : List α) (h : I s) :
    I (run step s as) :=
  Along.inv (fun s a hi _ => keep s a hi) as h (along_true s as)

/-- A relation that is reflexive, transitive and kept by every step that meets
the condition in a state with the invariant relates the two ends of a run. -/
theorem Along.rel {I : σ → Prop} {R : σ → σ → Prop}
    (keep : ∀ s a, I s → ok s a → I (step s a)) (refl : ∀ s, R s s)
    (trans : ∀ {a b c}, R a b → R b c → R a c) (rel : ∀ s a, I s → ok s a → R s (step s a)) :
    ∀ {s : σ} (as : List α), I s → Along step ok s as → R s (run step s as)
  | s, [], _, _ => refl s
  | s, a :: as, h, ⟨ha, hs⟩ =>
    trans (rel s a h ha) (Along.rel keep refl trans rel as (keep s a h ha) hs)

/-- Two systems stay related if one takes every action of a run and the other one only
those of a kind, and the actions it leaves out do not change how it is related. -/
theorem run_filter_rel {R : σ → σ → Prop} {keep : α → Bool} {allowed : α → Prop}
    (both : ∀ {s t} a, allowed a → keep a = true → R s t → R (step s a) (step t a))
    (left : ∀ {s t} a, allowed a → keep a = false → R s t → R (step s a) t) :
    ∀ {s t : σ} (as : List α), (∀ a ∈ as, allowed a) → R s t →
      R (run step s as) (run step t (as.filter keep))
  | _, _, [], _, h => h
  | s, t, a :: as, hall, h => by
    obtain ⟨ha, has⟩ := List.forall_mem_cons.mp hall
    cases hkeep : keep a with
    | true =>
      rw [List.filter_cons_of_pos hkeep]
      exact run_filter_rel both left as has (both a ha hkeep h)
    | false =>
      rw [List.filter_cons_of_neg (by rw [hkeep]; exact Bool.false_ne_true)]
      exact run_filter_rel both left as has (left a ha hkeep h)

/-- A property holds in every state a run reaches exactly if every action meets the
condition: an invariant implies the property, actions that meet the condition
keep the invariant, and one that does not breaks the property at once. Both are
asked only of the actions the run may have. -/
theorem throughout_iff_of_forall {I P : σ → Prop} {allowed : α → Prop}
    (keep : ∀ s a, allowed a → I s → ok s a → I (step s a)) (sound : ∀ s, I s → P s)
    (breaks : ∀ s a, allowed a → I s → ¬ ok s a → ¬ P (step s a)) :
    ∀ {s : σ} (as : List α), (∀ a ∈ as, allowed a) → I s →
      ((∀ n, P (run step s (as.take n))) ↔ Along step ok s as)
  | s, [], _, h => ⟨fun _ => trivial, fun _ n => by rw [List.take_nil]; exact sound s h⟩
  | s, a :: as, hall, h => by
    obtain ⟨hallowed, hrest⟩ := List.forall_mem_cons.mp hall
    by_cases ha : ok s a
    · have ih := throughout_iff_of_forall keep sound breaks as hrest (keep s a hallowed h ha)
      refine ⟨fun hall => ⟨ha, ih.mp fun n => hall (n + 1)⟩, fun halong n => ?_⟩
      cases n with
      | zero => exact sound s h
      | succ n => exact ih.mpr halong.2 n
    · exact ⟨fun hall => absurd (hall 1) (breaks s a hallowed h ha),
        fun halong => absurd halong.1 ha⟩

/-- The same of runs that may have any action. -/
theorem throughout_iff {I P : σ → Prop} (keep : ∀ s a, I s → ok s a → I (step s a))
    (sound : ∀ s, I s → P s) (breaks : ∀ s a, I s → ¬ ok s a → ¬ P (step s a)) {s : σ} (as : List α)
    (h : I s) : (∀ n, P (run step s (as.take n))) ↔ Along step ok s as :=
  throughout_iff_of_forall (fun s a (_ : True) => keep s a) sound
    (fun s a _ => breaks s a) as (fun _ _ => trivial) h

/-- A condition on actions alone holds along every run made of such actions. -/
theorem along_of_forall {ok : α → Prop} :
    ∀ (s : σ) (as : List α), (∀ a ∈ as, ok a) → Along step (fun _ a => ok a) s as
  | _, [], _ => trivial
  | s, a :: as, h => by
    obtain ⟨ha, has⟩ := List.forall_mem_cons.mp h
    exact ⟨ha, along_of_forall (step s a) as has⟩
end

/-- A condition decided state by state is decided along a run. -/
instance Along.decidable (step : σ → α → σ) (ok : σ → α → Prop) [∀ s a, Decidable (ok s a)] :
    ∀ (s : σ) (as : List α), Decidable (Along step ok s as)
  | _, [] => isTrue trivial
  | s, a :: as =>
    letI := Along.decidable step ok (step s a) as
    inferInstanceAs (Decidable (ok s a ∧ Along step ok (step s a) as))

end Runs
