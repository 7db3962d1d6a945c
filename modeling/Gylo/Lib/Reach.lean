import Mathlib.Data.List.Dedup
import Mathlib.Logic.Relation

/-! # Recursive union over an edge list

`walk edges roots` evaluates the recursive query "the successors of the roots,
and the successors of whatever was found" the way a database does: a working
table is joined with the edges, what was seen before is dropped, and the rest
becomes the next working table. It stops on every edge list, cyclic ones
included, and holds exactly what is reachable by one or more edges. -/
namespace Reach

variable {α : Type} [DecidableEq α]

/-- One edge, as a relation. -/
def Edge (edges : List (α × α)) (a b : α) : Prop := (a, b) ∈ edges

def successors (edges : List (α × α)) (work : List α) : List α :=
  (edges.filter fun e => e.1 ∈ work).map Prod.snd

/-- The next working table. -/
def fresh (edges : List (α × α)) (seen work : List α) : List α :=
  ((successors edges work).filter fun b => b ∉ seen).dedup

/-- Rounds of the recursive query: `seen` so far, `work` the rows new in the
last round. -/
def close (edges : List (α × α)) : Nat → List α → List α → List α
  | 0, seen, _ => seen
  | fuel + 1, seen, work =>
    if fresh edges seen work = [] then seen
    else close edges fuel (seen ++ fresh edges seen work) (fresh edges seen work)

/-- Each round but the last adds a target of some edge, so the number of edges
bounds the rounds. -/
def walk (edges : List (α × α)) (roots : List α) : List α :=
  close edges edges.length (successors edges roots).dedup (successors edges roots).dedup

theorem mem_successors {edges : List (α × α)} {work : List α} {b : α} :
    b ∈ successors edges work ↔ ∃ a ∈ work, Edge edges a b := by
  simp only [successors, List.mem_map, List.mem_filter, decide_eq_true_eq, Edge]
  constructor
  · rintro ⟨⟨a, b'⟩, ⟨he, ha⟩, rfl⟩; exact ⟨a, ha, he⟩
  · rintro ⟨a, ha, he⟩; exact ⟨(a, b), ⟨he, ha⟩, rfl⟩

theorem mem_fresh {edges : List (α × α)} {seen work : List α} {b : α} :
    b ∈ fresh edges seen work ↔ (∃ a ∈ work, Edge edges a b) ∧ b ∉ seen := by
  rw [fresh, List.mem_dedup, List.mem_filter, mem_successors, decide_eq_true_eq]

theorem close_sound {edges : List (α × α)} {P : α → Prop}
    (step : ∀ a b, P a → Edge edges a b → P b) :
    ∀ (fuel : Nat) (seen work : List α), (∀ a ∈ seen, P a) → (∀ a ∈ work, P a) →
      ∀ a ∈ close edges fuel seen work, P a
  | 0, _, _, hs, _, a, ha => hs a ha
  | fuel + 1, seen, work, hs, hw, a, ha => by
    simp only [close] at ha
    split at ha
    · exact hs a ha
    · have hf : ∀ b ∈ fresh edges seen work, P b := by
        intro b hb
        obtain ⟨⟨a, ha, he⟩, _⟩ := mem_fresh.mp hb
        exact step a b (hw a ha) he
      refine close_sound step fuel _ _ ?_ hf a ha
      intro b hb
      rcases List.mem_append.mp hb with hb | hb
      · exact hs b hb
      · exact hf b hb

/-- What a round still may add: edge targets not seen yet. -/
def unseen (edges : List (α × α)) (seen : List α) : List α :=
  (edges.map Prod.snd).filter fun b => b ∉ seen

theorem mem_unseen {edges : List (α × α)} {seen : List α} {a b : α} (he : Edge edges a b)
    (hb : b ∉ seen) : b ∈ unseen edges seen :=
  List.mem_filter.mpr ⟨List.mem_map.mpr ⟨(a, b), he, rfl⟩, decide_eq_true hb⟩

theorem unseen_lt {edges : List (α × α)} {seen new : List α} {b : α}
    (hb : b ∈ new) (hu : b ∈ unseen edges seen) :
    (unseen edges (seen ++ new)).length < (unseen edges seen).length := by
  have he : unseen edges (seen ++ new) = (unseen edges seen).filter fun b => b ∉ new := by
    simp only [unseen, List.filter_filter]
    congr 1; funext b
    simp [Bool.and_comm]
  rw [he]
  exact List.length_filter_lt_length_iff_exists.mpr ⟨b, hu, by simpa using hb⟩

/-- With a round for every target not seen yet, the result is closed: the
invariant is that only rows of the working table still have unseen
successors. -/
theorem close_closed (edges : List (α × α)) :
    ∀ (fuel : Nat) (seen work : List α), (unseen edges seen).length ≤ fuel →
      (∀ a ∈ seen, a ∉ work → ∀ b, Edge edges a b → b ∈ seen) →
      seen ⊆ close edges fuel seen work ∧
        ∀ a ∈ close edges fuel seen work, ∀ b, Edge edges a b → b ∈ close edges fuel seen work
  | 0, seen, work, hf, _ => by
    simp only [close]
    refine ⟨List.Subset.refl _, fun a _ b he => ?_⟩
    have hu : unseen edges seen = [] := List.length_eq_zero_iff.mp (Nat.le_zero.mp hf)
    by_contra hb
    have hb := mem_unseen he hb
    rw [hu] at hb; cases hb
  | fuel + 1, seen, work, hf, hc => by
    simp only [close]
    split
    · next hnil =>
      refine ⟨List.Subset.refl _, fun a ha b he => ?_⟩
      by_cases haw : a ∈ work
      · by_contra hb
        have hb : b ∈ fresh edges seen work := mem_fresh.mpr ⟨⟨a, haw, he⟩, hb⟩
        rw [hnil] at hb; cases hb
      · exact hc a ha haw b he
    · next hne =>
      obtain ⟨b, hb⟩ := List.exists_mem_of_ne_nil _ hne
      obtain ⟨⟨a, _, he⟩, hbs⟩ := mem_fresh.mp hb
      have hlt := unseen_lt hb (mem_unseen he hbs)
      obtain ⟨hsub, hcl⟩ := close_closed edges fuel (seen ++ fresh edges seen work)
        (fresh edges seen work) (by omega) (fun a ha hna b he => by
          rcases List.mem_append.mp ha with ha | ha
          · by_cases haw : a ∈ work
            · by_cases hbs : b ∈ seen
              · exact List.mem_append.mpr (.inl hbs)
              · exact List.mem_append.mpr (.inr (mem_fresh.mpr ⟨⟨a, haw, he⟩, hbs⟩))
            · exact List.mem_append.mpr (.inl (hc a ha haw b he))
          · exact absurd ha hna)
      exact ⟨fun x hx => hsub (List.mem_append.mpr (.inl hx)), hcl⟩

/-- The recursive query is the transitive closure: exactly the vertices one or
more edges away from a root. -/
theorem mem_walk {edges : List (α × α)} {roots : List α} {b : α} :
    b ∈ walk edges roots ↔ ∃ a ∈ roots, Relation.TransGen (Edge edges) a b := by
  have hbase : ∀ c, c ∈ (successors edges roots).dedup ↔ ∃ a ∈ roots, Edge edges a c :=
    fun c => by rw [List.mem_dedup, mem_successors]
  constructor
  · refine close_sound (P := fun b => ∃ a ∈ roots, Relation.TransGen (Edge edges) a b)
      (fun x y ⟨a, ha, h⟩ he => ⟨a, ha, h.tail he⟩) _ _ _ ?_ ?_ b
    all_goals
      intro c hc
      obtain ⟨a, ha, he⟩ := (hbase c).mp hc
      exact ⟨a, ha, .single he⟩
  · rintro ⟨a, ha, h⟩
    have hlen : (unseen edges (successors edges roots).dedup).length ≤ edges.length := by
      have := List.length_filter_le (fun b => b ∉ (successors edges roots).dedup)
        (edges.map Prod.snd)
      simpa [unseen] using this
    obtain ⟨hsub, hcl⟩ := close_closed edges edges.length _ _ hlen (fun a ha hna => absurd ha hna)
    induction h with
    | single he => exact hsub ((hbase _).mpr ⟨a, ha, he⟩)
    | tail _ he ih => exact hcl _ ih _ he

end Reach
