import Mathlib.Data.List.Nodup
import Mathlib.Data.List.Sort

/-! # The first elements of a list and of its halves

A predicate splits a list into two halves, each in the order of the list. What is
among the first `n` elements of the list decides what is among the first of each
half, and the other way round. -/
namespace Taking

variable {α β : Type} {l : List α} {n : Nat}

/-- In a sorted list the first elements come before the others. -/
theorem rel_of_mem_take {r : α → α → Prop} (hl : l.Pairwise r) {x y : α} (hx : x ∈ l.take n)
    (hy : y ∈ l) (hout : y ∉ l.take n) : r x y := by
  have hdrop : y ∈ l.drop n := by
    rw [← List.take_append_drop n l, List.mem_append] at hy
    exact hy.resolve_left hout
  rw [← List.take_append_drop n l] at hl
  exact (List.pairwise_append.mp hl).2.2 x hx y hdrop

/-- Sorting and then splitting is splitting and then sorting. -/
theorem filter_insertionSort [LinearOrder β] (key : α → β) (p : α → Bool)
    (hinj : ∀ x ∈ l, ∀ y ∈ l, key x = key y → x = y) :
    (l.insertionSort fun x y => key x ≤ key y).filter p =
      (l.filter p).insertionSort fun x y => key x ≤ key y := by
  have : Std.Total fun x y : α => key x ≤ key y := ⟨fun x y => le_total _ _⟩
  have : IsTrans α fun x y : α => key x ≤ key y := ⟨fun _ _ _ => le_trans⟩
  have hsorted : ((l.insertionSort fun x y => key x ≤ key y).filter p).Pairwise
      fun x y => key x ≤ key y := (List.pairwise_insertionSort _ l).filter p
  refine List.Perm.eq_of_pairwise ?_ hsorted (List.pairwise_insertionSort _ _)
    (((List.perm_insertionSort _ l).filter p).trans (List.perm_insertionSort _ _).symm)
  intro x y hx hy hle hge
  have hx := (List.mem_insertionSort _).mp (List.mem_filter.mp hx).1
  have hy := (List.mem_filter.mp ((List.mem_insertionSort _).mp hy)).1
  exact hinj x hx y hy (le_antisymm hle hge)

section
variable (p : α → Bool)

theorem filter_take : (l.take n).filter p = (l.filter p).take ((l.take n).filter p).length :=
  List.prefix_iff_eq_take.mp ((List.take_prefix n l).filter p)

/-- If the first `n` are all of one half, they are the first `n` of that half. -/
theorem take_eq_of_all (h : ∀ x ∈ l.take n, p x) : l.take n = (l.filter p).take n := by
  have hall : (l.take n).filter p = l.take n := List.filter_eq_self.mpr h
  have hfirst := filter_take (l := l) (n := n) p
  rw [hall, List.length_take] at hfirst
  rcases Nat.le_total n l.length with hle | hle
  · rw [Nat.min_eq_left hle] at hfirst
    exact hfirst
  · rw [List.take_of_length_le hle] at hall ⊢
    rw [hall, List.take_of_length_le hle]

/-- If one half is wholly among the first `n`, it is what the first `n` have of it. -/
theorem filter_take_of_all (hnd : l.Nodup) (h : ∀ x ∈ l, p x → x ∈ l.take n) :
    (l.take n).filter p = l.filter p := by
  have hnone : (l.drop n).filter p = [] := by
    refine List.filter_eq_nil_iff.mpr fun x hx hp => ?_
    exact List.disjoint_take_drop hnd (Nat.le_refl n) (h x (List.mem_of_mem_drop hx) hp) hx
  calc (l.take n).filter p = (l.take n).filter p ++ (l.drop n).filter p := by simp [hnone]
    _ = l.filter p := by rw [← List.filter_append, List.take_append_drop]

/-- What the first `n` have of one half is the first `n` of it exactly when the
first `n` are all of that half, or the half is wholly among them. -/
theorem filter_take_eq_iff (hnd : l.Nodup) : (l.take n).filter p = (l.filter p).take n ↔
    (∀ x ∈ l.take n, p x) ∨ ∀ x ∈ l, p x → x ∈ l.take n := by
  constructor
  · intro h
    rcases Nat.le_total n (l.filter p).length with hle | hle
    · -- the half fills the first `n`, so nothing else is there
      refine .inl (List.length_filter_eq_length_iff.mp ?_)
      have hlen : ((l.take n).filter p).length = n := by
        rw [h, List.length_take, Nat.min_eq_left hle]
      have hshort := List.length_filter_le p (l.take n)
      have htake := List.length_take_le n l
      omega
    · rw [List.take_of_length_le hle] at h
      refine .inr fun x hx hp => ?_
      have hmem : x ∈ (l.take n).filter p := h ▸ List.mem_filter.mpr ⟨hx, hp⟩
      exact (List.mem_filter.mp hmem).1
  · intro h
    rcases h with hall | hin
    · rw [List.filter_eq_self.mpr hall]
      exact take_eq_of_all p hall
    · have hhalf := filter_take_of_all p hnd hin
      have hlen := List.length_filter_le p (l.take n)
      rw [hhalf] at hlen
      rw [hhalf, List.take_of_length_le (hlen.trans (List.length_take_le n l))]

/-- If one half is wholly among the first `n`, the rest of them are the first of
the other half. -/
theorem filter_not_take (hnd : l.Nodup) (h : ∀ x ∈ l, p x → x ∈ l.take n) :
    (l.take n).filter (fun x => !p x) = (l.filter fun x => !p x).take (n - (l.filter p).length) := by
  have hlen := List.length_eq_length_filter_add (l := l.take n) p
  have hall := List.length_eq_length_filter_add (l := l) p
  rw [filter_take_of_all p hnd h, List.length_take] at hlen
  rw [filter_take]
  rcases Nat.le_total n l.length with hle | hle
  · congr 1
    omega
  · rw [List.take_of_length_le (by omega), List.take_of_length_le (by omega)]

end

/-- Fewer elements meet the stronger of two conditions, if one meets only the
weaker. -/
theorem countP_lt_countP {p q : α → Bool} (h : ∀ x ∈ l, p x → q x) {x : α} (hx : x ∈ l)
    (hp : ¬ p x) (hq : q x) : l.countP p < l.countP q := by
  refine lt_of_le_of_ne (List.countP_mono_left h) fun heq => ?_
  have hboth : (l.filter q).countP p = (l.filter q).length := by
    rw [List.countP_filter, ← List.countP_eq_length_filter, ← heq]
    exact List.countP_congr fun y hy => by simpa using h y hy
  exact hp (List.countP_eq_length.mp hboth x (List.mem_filter.mpr ⟨hx, hq⟩))

end Taking
