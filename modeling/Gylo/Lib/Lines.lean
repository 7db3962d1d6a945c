import Mathlib.Data.List.DropRight

/-! # Lines of a stream, item by item

A stream is cut into lines at a separator. What one item does to the lines seen so
far is all that a reader needs that meets the items one at a time: a separator closes
the line that is open, anything else makes it longer. What stands after the last
separator can be told from the text alone. The last few lines are kept in a queue that
drops its first entry when it is full. -/
namespace Lines

variable {α : Type} [DecidableEq α] {sep x : α} {s : List α}

/-- The lines whose separator has come. -/
def closed (sep : α) (s : List α) : List (List α) := (s.splitOn sep).dropLast

/-- What has come since the last separator. -/
def rest (sep : α) (s : List α) : List α := (s.splitOn sep).getLastD []

/-- The lines of the whole stream; one without a separator counts unless it is
empty. -/
def lines (sep : α) (s : List α) : List (List α) :=
  if rest sep s = [] then closed sep s else closed sep s ++ [rest sep s]

theorem splitOn_ne_nil : s.splitOn sep ≠ [] := List.splitOnP_ne_nil _ s

theorem splitOn_eq (sep : α) (s : List α) : s.splitOn sep = closed sep s ++ [rest sep s] := by
  unfold closed rest
  rw [List.getLastD_eq_getLast?, List.getLast?_eq_some_getLast splitOn_ne_nil, Option.getD_some,
    List.dropLast_append_getLast]

theorem splitOn_concat_self (sep : α) (s : List α) :
    (s ++ [sep]).splitOn sep = s.splitOn sep ++ [[]] := List.splitOnP_append_cons s [] (by simp)

theorem splitOn_concat_of_ne (hx : x ≠ sep) :
    (s ++ [x]).splitOn sep = closed sep s ++ [rest sep s ++ [x]] := by
  have hx' : (x == sep) = false := beq_eq_false_iff_ne.mpr hx
  induction s with
  | nil =>
    show List.splitOnP (· == sep) [x] = [[x]]
    rw [List.splitOnP_cons_eq_if_modifyHead]
    simp [hx']
  | cons a s ih =>
    have hold := splitOn_eq sep (a :: s)
    have hcons : ∀ t : List α, (a :: t).splitOn sep =
        if (a == sep) = true then [] :: t.splitOn sep else (t.splitOn sep).modifyHead (a :: ·) :=
      fun t => List.splitOnP_cons_eq_if_modifyHead a t
    -- whatever the first item does to the lines, it leaves the last of several alone
    have hgrow : ∀ ls : List (List α), ls ++ [rest sep s] = closed sep (a :: s) ++ [rest sep (a :: s)] →
        ls ++ [rest sep s ++ [x]] = closed sep (a :: s) ++ [rest sep (a :: s) ++ [x]] := by
      intro ls hls
      obtain ⟨hclosed, hrest⟩ := List.append_singleton_inj.mp hls
      rw [hclosed, hrest]
    rw [List.cons_append, hcons, ih]
    rw [hcons, splitOn_eq] at hold
    split at hold
    next ha =>
      rw [if_pos ha]
      exact hgrow ([] :: closed sep s) hold
    next ha =>
      rw [if_neg ha]
      cases hc : closed sep s with
      | nil =>
        rw [hc] at hold
        replace hold : [] ++ [a :: rest sep s] = closed sep (a :: s) ++ [rest sep (a :: s)] := hold
        obtain ⟨hclosed, hrest⟩ := List.append_singleton_inj.mp hold
        rw [← hclosed, ← hrest]
        rfl
      | cons l ls =>
        rw [hc] at hold
        exact hgrow ((a :: l) :: ls) hold

theorem closed_of_splitOn {ls : List (List α)} {l : List α} (h : s.splitOn sep = ls ++ [l]) :
    closed sep s = ls ∧ rest sep s = l := by
  unfold closed rest
  rw [h, List.dropLast_concat, List.getLastD_concat]
  exact ⟨rfl, rfl⟩

/-- A separator closes the open line. -/
@[simp] theorem closed_concat_self : closed sep (s ++ [sep]) = closed sep s ++ [rest sep s] :=
  (closed_of_splitOn ((splitOn_concat_self sep s).trans (by rw [splitOn_eq]))).1

@[simp] theorem rest_concat_self : rest sep (s ++ [sep]) = [] :=
  (closed_of_splitOn (splitOn_concat_self sep s)).2

/-- Anything else is added to it. -/
theorem closed_concat_of_ne (hx : x ≠ sep) : closed sep (s ++ [x]) = closed sep s :=
  (closed_of_splitOn (splitOn_concat_of_ne hx)).1

theorem rest_concat_of_ne (hx : x ≠ sep) : rest sep (s ++ [x]) = rest sep s ++ [x] :=
  (closed_of_splitOn (splitOn_concat_of_ne hx)).2

/-! ## The last separator -/

section
omit [DecidableEq α]
variable {xs ys a b zs : List α}

private theorem eq_nil_of_cons_eq (ha : sep ∉ a) (h : sep :: a = zs ++ sep :: b) : zs = [] := by
  cases zs with
  | nil => rfl
  | cons z zs =>
    obtain ⟨_, htail⟩ := List.cons_eq_cons.mp h
    refine absurd ?_ ha
    rw [htail]
    exact List.mem_append_right zs List.mem_cons_self

/-- There is one way to cut a text at its last separator. -/
theorem append_sep_inj (ha : sep ∉ a) (hb : sep ∉ b) (h : xs ++ sep :: a = ys ++ sep :: b) :
    xs = ys ∧ a = b := by
  have hstem : xs = ys := by
    rcases List.append_eq_append_iff.mp h with ⟨zs, hys, htail⟩ | ⟨zs, hxs, htail⟩
    · rw [hys, eq_nil_of_cons_eq ha htail, List.append_nil]
    · rw [hxs, eq_nil_of_cons_eq hb htail, List.append_nil]
  subst hstem
  exact ⟨rfl, (List.cons_eq_cons.mp (List.append_cancel_left h)).2⟩
end

/-! ## The last few -/

/-- Append to a queue that holds `n` entries at most. -/
def push {β : Type} (n : Nat) (queue : List β) (b : β) : List β :=
  (if queue.length = n then queue.drop 1 else queue) ++ [b]

/-- A queue that is pushed to holds the last entries. -/
theorem push_rtake {β : Type} {n : Nat} (hn : 0 < n) (bs : List β) (b : β) :
    push n (bs.rtake n) b = (bs ++ [b]).rtake n := by
  obtain ⟨m, rfl⟩ := Nat.exists_eq_succ_of_ne_zero (Nat.pos_iff_ne_zero.mp hn)
  unfold push
  rw [List.rtake_concat_succ]
  unfold List.rtake
  rw [List.length_drop, List.drop_drop]
  congr 1
  split
  next hfull =>
    congr 1
    omega
  next hroom =>
    congr 1
    omega

theorem length_rtake_le {β : Type} (bs : List β) (n : Nat) : (bs.rtake n).length ≤ n := by
  unfold List.rtake
  rw [List.length_drop]
  omega

end Lines
