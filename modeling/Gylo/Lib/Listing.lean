import Mathlib.Data.Finset.Max
import Mathlib.Data.List.Sort

/-! # Counting and listing under individual limits

Items that each tolerate a number of items in total. A list of them can be
ordered so that the `i`-th tolerates at least `i` if, for every `c`, at most
`c` of them tolerate no more than `c`; this is the form in which a counting
argument can keep the property. The second lemma bounds a count by ranks:
items whose rank in some order is at most `n` are at most `n`. -/
namespace Listing

variable {α β : Type}

/-- At most `c` items have a limit of `c` or less, for every `c`. -/
def Within (limit : α → Int) (l : List α) : Prop :=
  ∀ c : Nat, l.countP (fun x => limit x ≤ c) ≤ c

section
variable {limit : α → Int} {l l' : List α}

theorem Within.perm (h : Within limit l) (hp : l'.Perm l) : Within limit l' := by
  intro c
  rw [hp.countP_eq]
  exact h c

theorem Within.pos (h : Within limit l) {x : α} (hx : x ∈ l) : 0 < limit x := by
  have hnone := List.countP_eq_zero.mp (Nat.le_zero.mp (h 0)) x hx
  simpa using hnone

/-- Items that share a limit are no more than it. -/
theorem Within.length_le (h : Within limit l) {m : Nat} (hm : ∀ x ∈ l, limit x ≤ m) :
    l.length ≤ m := by
  have hall : l.countP (fun x => limit x ≤ m) = l.length :=
    List.countP_eq_length.mpr fun x hx => decide_eq_true (hm x hx)
  exact hall ▸ h m

/-- In ascending order of their limits, the `i`-th item tolerates `i` items. -/
theorem Within.exists_listing (h : Within limit l) :
    ∃ l' : List α, l'.Perm l ∧ ∀ i : Fin l'.length, (i : Int) + 1 ≤ limit (l'.get i) := by
  refine ⟨l.insertionSort fun x y => limit x ≤ limit y, List.perm_insertionSort _ l, ?_⟩
  have hsorted : (l.insertionSort fun x y => limit x ≤ limit y).Pairwise
      fun x y => limit x ≤ limit y :=
    haveI : Std.Total fun x y : α => limit x ≤ limit y := ⟨fun x y => le_total _ _⟩
    haveI : IsTrans α fun x y : α => limit x ≤ limit y := ⟨fun _ _ _ => le_trans⟩
    List.pairwise_insertionSort _ l
  have hwithin := h.perm (List.perm_insertionSort (fun x y => limit x ≤ limit y) l)
  generalize l.insertionSort (fun x y => limit x ≤ limit y) = l' at hsorted hwithin
  intro i
  have hpos := hwithin.pos (List.get_mem l' i)
  -- the first `i + 1` items all have a limit of at most the `i`-th one's
  have hpre : ∀ x ∈ l'.take (i + 1), limit x ≤ limit (l'.get i) := by
    intro x hx
    obtain ⟨j, hj, rfl⟩ := List.mem_iff_getElem.mp hx
    rw [List.length_take] at hj
    rw [List.getElem_take]
    rcases Nat.lt_or_eq_of_le (show j ≤ i by omega) with hlt | heq
    · exact List.pairwise_iff_getElem.mp hsorted j i (by omega) i.isLt hlt
    · subst heq
      exact le_refl _
  have hcount : i.val + 1 ≤ l'.countP fun x => limit x ≤ (limit (l'.get i)).toNat := by
    have hlen : (l'.take (i + 1)).length = i.val + 1 := by
      rw [List.length_take]
      have := i.isLt
      omega
    rw [← hlen, ← List.countP_eq_length.mpr fun x hx => decide_eq_true
      (show limit x ≤ ((limit (l'.get i)).toNat : Int) by have := hpre x hx; omega)]
    exact (List.take_sublist _ _).countP_le
  have hle := hwithin (limit (l'.get i)).toNat
  omega
end

/-- If among the items with `p` each has at most `n` of them up to and
including itself, there are at most `n`. -/
theorem countP_le_of_rank [LinearOrder β] [DecidableEq α] (key : α → β) {p : α → Prop}
    [DecidablePred p] {l : List α} {n : Nat}
    (h : ∀ x ∈ l, p x → l.countP (fun y => p y ∧ key y ≤ key x) ≤ n) : l.countP p ≤ n := by
  by_cases hne : (l.toFinset.filter p).Nonempty
  · -- the last item in the order has all the others before it
    obtain ⟨x, hx, hmax⟩ := Finset.exists_max_image (l.toFinset.filter p) key hne
    obtain ⟨hxl, hpx⟩ := Finset.mem_filter.mp hx
    refine le_trans (List.countP_mono_left fun y hy hpy => ?_) (h x (List.mem_toFinset.mp hxl) hpx)
    have hpy := of_decide_eq_true hpy
    exact decide_eq_true ⟨hpy, hmax y (Finset.mem_filter.mpr ⟨List.mem_toFinset.mpr hy, hpy⟩)⟩
  · rw [List.countP_eq_zero.mpr]
    · exact Nat.zero_le n
    · intro y hy hpy
      exact hne ⟨y, Finset.mem_filter.mpr ⟨List.mem_toFinset.mpr hy, of_decide_eq_true hpy⟩⟩

end Listing
